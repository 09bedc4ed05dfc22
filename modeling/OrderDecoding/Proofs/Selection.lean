/-
# `Proofs.Selection` — selecting first, rescoring second

A pool selects before it rescores, so what it selects cannot depend on any
score: not on those that the candidates come with, and not on those that
they are about to get.  The first is a matter of forgetting the scores
(`select_map`): a selection of candidates without scores is the selection
without scores.  With it the second follows, and the two stages can be
exchanged where both go well.  They differ where they fail: what is not
selected is never replayed, so it cannot spoil the pool.

What a selection keeps is told here once more, by places and not by
recursion: the candidates whose signature no EARLIER one has (`firsts`).
-/
import OrderDecoding.Proofs.Growth

namespace OrderDecoding

variable {α : Type}

/-- A candidate with its score forgotten. -/
def Candidate.unscored (c : Candidate α) : Candidate Unit :=
  { choices := c.choices, score := (), origin := c.origin }

namespace Pool

/-! ## First occurrences -/

/-- None of the candidates has the signature of this one. -/
def isNew (before : List (Candidate α)) (c : Candidate α) : Bool :=
  before.all fun d => c.signature ≠ d.signature

/-- The candidates whose signature none before them has. -/
def firsts (candidates : List (Candidate α)) : List (Candidate α) :=
  (candidates.zipIdx.filter fun e => isNew (candidates.take e.2) e.1).map (·.1)

/-- The first `n` of the first occurrences; the head alone where these are
none. -/
def selection (n : Nat) (candidates : List (Candidate α)) : List (Candidate α) :=
  if (firsts candidates).take n = [] then candidates.take 1 else (firsts candidates).take n

theorem firsts_concat (candidates : List (Candidate α)) (c : Candidate α) :
    firsts (candidates ++ [c]) = firsts candidates ++ [c].filter (isNew candidates) := by
  have hbefore : candidates.zipIdx.filter (fun e => isNew ((candidates ++ [c]).take e.2) e.1) =
      candidates.zipIdx.filter fun e => isNew (candidates.take e.2) e.1 := by
    refine List.filter_congr fun e he => ?_
    have hlt : e.2 < candidates.length := (List.getElem?_eq_some_iff.mp
      (List.mem_zipIdx_iff_getElem?.mp he)).1
    rw [List.take_append_of_le_length (Nat.le_of_lt hlt)]
  rw [firsts, List.zipIdx_append, List.filter_append, hbefore, List.map_append, firsts]
  congr 1
  rw [Nat.zero_add, List.zipIdx_singleton, List.filter_singleton, List.filter_singleton,
    List.take_left]
  cases isNew candidates c <;> rfl

theorem distinct_concat (candidates : List (Candidate α)) (c : Candidate α) :
    distinct (candidates ++ [c]) = distinct candidates ++ [c].filter (isNew candidates) := by
  induction candidates with
  | nil => rfl
  | cons d rest ih =>
    rw [List.cons_append, distinct, ih, List.filter_append, List.filter_filter, distinct,
      List.cons_append]
    congr 2

/-- What the recursion keeps are the first occurrences. -/
theorem distinct_eq_firsts (candidates : List (Candidate α)) :
    distinct candidates = firsts candidates := by
  induction candidates using List.reverseRecOn with
  | nil => rfl
  | append_singleton candidates c ih => rw [distinct_concat, firsts_concat, ih]

theorem select_eq_selection (n : Nat) (candidates : List (Candidate α)) :
    select n candidates = selection n candidates := by
  rw [select, selection, distinct_eq_firsts]
  cases (firsts candidates).take n with
  | nil => rw [if_pos rfl]
  | cons c kept => rw [if_neg (List.cons_ne_nil c kept)]

/-! ## Selecting without looking at scores -/

section

variable {β : Type} {f : Candidate α → Candidate β}

theorem distinct_map (hf : ∀ c, (f c).signature = c.signature) (candidates : List (Candidate α)) :
    distinct (candidates.map f) = (distinct candidates).map f := by
  induction candidates with
  | nil => rfl
  | cons c rest ih =>
    rw [List.map_cons, distinct, ih, List.filter_map, distinct, List.map_cons]
    congr 2
    refine List.filter_congr fun d _ => ?_
    rw [Function.comp_apply, hf, hf]

/-- A selection commutes with everything that leaves the signatures as they
are. -/
theorem select_map (hf : ∀ c, (f c).signature = c.signature) (n : Nat)
    (candidates : List (Candidate α)) :
    select n (candidates.map f) = (select n candidates).map f := by
  rw [select, select, distinct_map hf, ← List.map_take, ← List.map_take]
  cases (distinct candidates).take n <;> rfl

end

theorem unscored_select (n : Nat) (candidates : List (Candidate α)) :
    (select n candidates).map Candidate.unscored = select n (candidates.map Candidate.unscored) :=
  (select_map (fun c : Candidate α => show c.unscored.signature = c.signature from rfl)
    n candidates).symm

/-! ## Selecting twice -/

theorem distinct_eq_self {candidates : List (Candidate α)}
    (h : (candidates.map Candidate.signature).Nodup) : distinct candidates = candidates := by
  have happend : distinct (candidates ++ []) = candidates ++ fresh candidates [] :=
    distinct_append h
  have hnone : fresh candidates [] = [] := rfl
  rwa [hnone, List.append_nil] at happend

theorem select_select (n : Nat) (candidates : List (Candidate α)) :
    select n (select n candidates) = select n candidates := by
  rcases Nat.eq_zero_or_pos n with rfl | hroom
  · -- only the head is kept, whatever comes after it
    have hhead : ∀ cs : List (Candidate α), select 0 cs = cs.take 1 := fun cs => by
      rw [select, List.take_zero]
    rw [hhead, hhead, List.take_take, Nat.min_self]
  · have hnodup : (((distinct candidates).take n).map Candidate.signature).Nodup :=
      ((List.take_sublist n _).map _).nodup (nodup_distinct candidates)
    rw [select_eq_take hroom candidates, select_eq_take hroom, distinct_eq_self hnodup,
      List.take_take, Nat.min_self]

/-! ## Rescoring without looking at scores -/

variable [Score α] {p : Position α}

theorem rescore_congr {candidates candidates' : List (Candidate α)}
    (h : candidates.map Candidate.unscored = candidates'.map Candidate.unscored) :
    rescore p candidates = rescore p candidates' := by
  -- a score is put to the unscored candidate as it is to the candidate
  have hforgets (cs : List (Candidate α)) :
      rescore p cs = p.workers.forkJoin (cs.map Candidate.unscored) (Candidate.scored p) := by
    rw [Workers.forkJoin_map]
    rfl
  rw [hforgets, hforgets, h]

theorem exists_scored_iff {c : Candidate α} :
    (∃ d : Candidate α, c.scored p = .ok d) ↔ c.Replayable p := by
  simp only [Candidate.scored_eq_ok_iff]
  exact ⟨fun ⟨_, score, h, _⟩ => ⟨score, h⟩, fun ⟨score, h⟩ => ⟨_, score, h, rfl⟩⟩

/-- Of candidates that cannot be replayed, the one that comes in first is
reported. -/
theorem rescore_error_iff {candidates : List (Candidate α)} {e : DecodeError} :
    rescore p candidates = .error e ↔ ∃ (i : Nat) (c : Candidate α), candidates[i]? = some c ∧
      p.sequenceLogProb c.choices = .error e ∧
      ∀ (j : Nat) (d : Candidate α),
        p.workers.rank candidates.length j < p.workers.rank candidates.length i →
        candidates[j]? = some d → d.Replayable p := by
  rw [rescore_eq_forkJoin, Workers.forkJoin_eq_error_iff]
  simp only [Candidate.scored_eq_error_iff, exists_scored_iff]

/-- With one worker it is the foremost. -/
theorem rescore_one_error_iff (hone : p.workers = .one) {candidates : List (Candidate α)}
    {e : DecodeError} :
    rescore p candidates = .error e ↔ ∃ (i : Nat) (c : Candidate α), candidates[i]? = some c ∧
      p.sequenceLogProb c.choices = .error e ∧
      ∀ (j : Nat) (d : Candidate α), j < i → candidates[j]? = some d → d.Replayable p := by
  rw [rescore_eq_forkJoin, hone, Workers.forkJoin_one_eq_error_iff]
  simp only [Candidate.scored_eq_error_iff, exists_scored_iff]

/-- With several it may be any. -/
theorem exists_rescore_eq_error {candidates : List (Candidate α)} {c : Candidate α}
    (hc : c ∈ candidates) {e : DecodeError} (h : p.sequenceLogProb c.choices = .error e) :
    ∃ early, rescore (p.withWorkers (.several early)) candidates = .error e := by
  have hscored : c.scored p = .error e := Candidate.scored_eq_error_iff.mpr h
  exact Workers.exists_forkJoin_eq_error hc hscored

/-- What was rescored is, but for the scores, what was to be rescored. -/
theorem unscored_of_rescore {candidates rescored : List (Candidate α)}
    (h : rescore p candidates = .ok rescored) :
    rescored.map Candidate.unscored = candidates.map Candidate.unscored :=
  rescore_keeps (fun _ _ => rfl) h

/-- Where all candidates can be rescored the two stages can be
exchanged. -/
theorem rescore_select {n : Nat} {candidates rescored : List (Candidate α)}
    (h : rescore p candidates = .ok rescored) :
    rescore p (select n candidates) = .ok (select n rescored) := by
  have hsame : (select n candidates).map Candidate.unscored =
      (select n rescored).map Candidate.unscored := by
    rw [unscored_select, unscored_select, unscored_of_rescore h]
  calc rescore p (select n candidates) = rescore p (select n rescored) := rescore_congr hsame
    _ = .ok (select n rescored) :=
        rescore_eq_self fun _ hc => replayed_of_mem_rescore h (mem_of_mem_select hc)

/-! ## Pools -/

/-- The scores that candidates come with make no difference to a pool. -/
theorem build_congr {beam beam' sampled sampled' : List (Candidate α)}
    (hbeam : beam'.map Candidate.unscored = beam.map Candidate.unscored)
    (hsampled : sampled'.map Candidate.unscored = sampled.map Candidate.unscored) (n : Nat) :
    build p beam' sampled' n = build p beam sampled n := by
  refine rescore_congr ?_
  rw [unscored_select, unscored_select, List.map_append, List.map_append, hbeam, hsampled]

/-- A pool of the candidates of a pool is that pool. -/
theorem build_build {beam sampled pool : List (Candidate α)} {n : Nat}
    (h : build p beam sampled n = .ok pool) : build p pool [] n = .ok pool := by
  have hsame : (select n pool).map Candidate.unscored = pool.map Candidate.unscored := by
    rw [unscored_select, unscored_of_rescore h, ← unscored_select, select_select]
  calc build p pool [] n = rescore p (select n pool) := by rw [build, List.append_nil]
    _ = rescore p pool := rescore_congr hsame
    _ = .ok pool := rescore_eq_self fun _ hc => replayed_of_mem_rescore h hc

/-- A pool is the rescored selection, value or error.  The scores that its
candidates come with never matter, and each comes with the choices and the
origin of its first occurrence.  Where all selected candidates can be replayed
it does not matter either who replays them.  Otherwise the error is that of the
one that comes in first: with one worker the foremost that cannot be replayed,
with several any that cannot may be it.  What is not selected causes no error.
Where everything can be rescored the selection might as well come second.  A
pool made of a pool is the same pool. -/
theorem build_rescores_selection (p : Position α) (beam sampled : List (Candidate α)) (n : Nat) :
    build p beam sampled n = rescore p (selection n (beam ++ sampled)) ∧
    (∀ beam' sampled', beam'.map Candidate.unscored = beam.map Candidate.unscored →
      sampled'.map Candidate.unscored = sampled.map Candidate.unscored →
        build p beam' sampled' n = build p beam sampled n) ∧
    (∀ pool, build p beam sampled n = .ok pool →
      pool.map Candidate.unscored =
        (selection n (beam ++ sampled)).map Candidate.unscored ∧
      (∀ c ∈ pool, p.sequenceLogProb c.choices = .ok c.score) ∧
      build p pool [] n = .ok pool) ∧
    (∀ e, build p beam sampled n = .error e ↔
      ∃ (i : Nat) (c : Candidate α), (selection n (beam ++ sampled))[i]? = some c ∧
        p.sequenceLogProb c.choices = .error e ∧
        ∀ (j : Nat) (d : Candidate α),
          p.workers.rank (selection n (beam ++ sampled)).length j <
            p.workers.rank (selection n (beam ++ sampled)).length i →
          (selection n (beam ++ sampled))[j]? = some d →
            ∃ score, p.sequenceLogProb d.choices = .ok score) ∧
    (p.workers = .one → ∀ e, build p beam sampled n = .error e ↔
      ∃ (i : Nat) (c : Candidate α), (selection n (beam ++ sampled))[i]? = some c ∧
        p.sequenceLogProb c.choices = .error e ∧
        ∀ (j : Nat) (d : Candidate α), j < i → (selection n (beam ++ sampled))[j]? = some d →
          ∃ score, p.sequenceLogProb d.choices = .ok score) ∧
    (∀ c ∈ selection n (beam ++ sampled), ∀ e, p.sequenceLogProb c.choices = .error e →
      ∃ early, build (p.withWorkers (.several early)) beam sampled n = .error e) ∧
    (∀ rescored, rescore p (beam ++ sampled) = .ok rescored →
      build p beam sampled n = .ok (selection n rescored)) := by
  have hbuild : build p beam sampled n = rescore p (selection n (beam ++ sampled)) := by
    rw [← select_eq_selection]
    rfl
  refine ⟨hbuild, fun _ _ hbeam hsampled => build_congr hbeam hsampled n, fun pool h => ?_,
    fun e => ?_, fun hone e => ?_, fun c hc e h => ?_, fun rescored h => ?_⟩
  · have hpool := h
    rw [hbuild] at hpool
    exact ⟨unscored_of_rescore hpool, fun _ hc => replayed_of_mem_rescore hpool hc,
      build_build h⟩
  · rw [hbuild]
    exact rescore_error_iff
  · rw [hbuild]
    exact rescore_one_error_iff hone
  · rw [← select_eq_selection] at hc
    exact exists_rescore_eq_error hc h
  · rw [← select_eq_selection]
    exact rescore_select h

end Pool

/-- Three candidates found before, with scores that are no longer right.
The second has the entries of the first, but not its orders. -/
def spreadingFound : List (Candidate Stark) :=
  [{ spreadingCandidate .hold .beam with score := (-5 : Float) },
    { spreadingCandidate .hold .greedy with choices := [⟨0, .hold 1⟩, ⟨0, .hold 1⟩] },
    { spreadingCandidate .disband .sample with score := (7 : Float) }]

/-- A candidate with an entry that is not in the vocabulary. -/
def spreadingStray : Candidate Stark :=
  { choices := [⟨99, .hold 0⟩], score := (9 : Float), origin := .sample }

/-- Two of that kind. -/
def spreadingStrays : List (Candidate Stark) :=
  [spreadingStray, { spreadingStray with choices := [⟨98, .hold 0⟩] }]

/-- With room for two the duplicate and the stray one are passed over, and
either could not be replayed; with room for three the stray one is the
error; without room the head is kept.  Of two stray ones one worker reports
the first, and several the second if that comes in first. -/
theorem spreading_selected :
    (Pool.build spreading spreadingFound [spreadingStray] 2 =
        .ok [spreadingCandidate .hold .beam, spreadingCandidate .disband .sample] ∧
      Pool.build spreading (spreadingFound.map fun c => { c with score := (0 : Float) })
          [spreadingStray] 2 =
        .ok [spreadingCandidate .hold .beam, spreadingCandidate .disband .sample] ∧
      Pool.build spreading
          [spreadingCandidate .hold .beam, spreadingCandidate .disband .sample] [] 2 =
        .ok [spreadingCandidate .hold .beam, spreadingCandidate .disband .sample]) ∧
    Pool.build spreading spreadingFound [spreadingStray] 3 =
      .error (.argument (.indexOutOfRange 0 99 11)) ∧
    Pool.build spreading spreadingFound [spreadingStray] 0 =
      .ok [spreadingCandidate .hold .beam] ∧
    (Pool.rescore spreading (spreadingFound.take 1 ++ spreadingFound.drop 2) =
        .ok [spreadingCandidate .hold .beam, spreadingCandidate .disband .sample] ∧
      Pool.build spreading (spreadingFound.take 1) (spreadingFound.drop 2) 1 =
        .ok [spreadingCandidate .hold .beam]) ∧
    (Pool.build spreading spreadingStrays [] 2 = .error (.argument (.indexOutOfRange 0 99 11)) ∧
      Pool.build (spreading.withWorkers (.several fun _ => [1])) spreadingStrays [] 2 =
        .error (.argument (.indexOutOfRange 0 98 11))) := by
  have htwo : Pool.build spreading spreadingFound [spreadingStray] 2 =
      .ok [spreadingCandidate .hold .beam, spreadingCandidate .disband .sample] := by
    decide +kernel
  have hall : Pool.rescore spreading (spreadingFound.take 1 ++ spreadingFound.drop 2) =
      .ok [spreadingCandidate .hold .beam, spreadingCandidate .disband .sample] := by
    decide +kernel
  have hgood : ∀ d ∈ (Pool.selection 3 (spreadingFound ++ [spreadingStray])).take 2,
      spreading.sequenceLogProb d.choices = .ok (0 : Float) := by
    decide +kernel
  obtain ⟨-, hscores, hpool, -⟩ :=
    Pool.build_rescores_selection spreading spreadingFound [spreadingStray] 2
  obtain ⟨-, -, -, -, hone, -⟩ :=
    Pool.build_rescores_selection spreading spreadingFound [spreadingStray] 3
  obtain ⟨hhead, -⟩ :=
    Pool.build_rescores_selection spreading spreadingFound [spreadingStray] 0
  obtain ⟨-, -, -, -, -, -, hexchange⟩ :=
    Pool.build_rescores_selection spreading (spreadingFound.take 1) (spreadingFound.drop 2) 1
  refine ⟨⟨htwo, (hscores _ _ rfl rfl).trans htwo, (hpool _ htwo).2.2⟩,
    (hone rfl _).mpr ⟨2, spreadingStray, rfl, by decide +kernel, ?_⟩, ?_,
    ⟨hall, hexchange _ hall⟩, by decide +kernel⟩
  · intro j d hj hd
    have hkept : d ∈ (Pool.selection 3 (spreadingFound ++ [spreadingStray])).take 2 :=
      List.mem_of_getElem? ((List.getElem?_take_of_lt hj).trans hd)
    exact ⟨_, hgood d hkept⟩
  · rw [hhead]
    decide +kernel

end OrderDecoding
