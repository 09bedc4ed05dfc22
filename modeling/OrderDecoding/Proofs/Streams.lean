/-
# `Proofs.Streams` — samples do not know of each other

A call for many samples moves all of them on by one unit at a time and
breaks off as soon as one of them fails.  Still nothing is passed from one
to another: after any number of steps each sample stands where it would
stand if it had been asked for alone, with the same choices, the same score
and the same generator to draw from next (`takeSteps_lockstep`).  So a call
for `N` samples is `N` calls for one, with the seeds one after the other.

What the samples do share is one answer when something goes wrong.  A
sample that fails early hides one that stands before it and would fail
later: what counts is first the step, and among those that fail at one step
which of them comes in first (`fails_iff_first`).  With one worker that is
the one that stands first.  With several it is whichever gets there before
the others, so ANY sample that fails at the earliest step can be the one
that is reported (`exists_reported`).
-/
import OrderDecoding.Proofs.Forking
import OrderDecoding.Proofs.Stark
import OrderDecoding.Strategy.Sample

namespace OrderDecoding
namespace Sample

variable {α : Type} [Score α] {p : Position α} {params : Params α}

/-- The call for sample `i` alone. -/
def Params.alone (params : Params α) (i : Nat) : Params α :=
  { params with numSamples := 1, seed := params.seed + UInt64.ofNat i }

/-- Sample `i` before its first step. -/
def walker (params : Params α) (i : Nat) : Walker α :=
  { path := Path.start, source := Generator.ofSeed (params.seed + UInt64.ofNat i) }

/-- All samples of a call move on by one unit. -/
def lockstep (p : Position α) (params : Params α) (walkers : List (Walker α)) :
    Except DecodeError (List (Walker α)) :=
  p.workers.forkJoin walkers (walk p params)

/-- The step at which a call for samples fails, and how: a temperature that
no row can be divided by is found out before anything else; otherwise it is
a sample that cannot move on. -/
inductive Fails (p : Position α) (params : Params α) : Nat → DecodeError → Prop
  | temperature {e : DecodeError} : checkTemperature params.temperature = .error e →
      Fails p params 0 e
  | walk {k : Nat} {e : DecodeError} : checkTemperature params.temperature = .ok () →
      k < p.numSteps → FailsAt (lockstep p params) k (start params) e → Fails p params k e

/-! ## The start -/

theorem length_start : (start params).length = params.numSamples := by
  rw [start, List.length_map, List.length_range]

theorem getElem?_start {i : Nat} {w : Walker α} :
    (start params)[i]? = some w ↔ i < params.numSamples ∧ w = walker params i := by
  rw [start, List.getElem?_map, Option.map_eq_some_iff]
  constructor
  · rintro ⟨j, hj, rfl⟩
    obtain ⟨hi, rfl⟩ := List.getElem?_eq_some_iff.mp hj
    rw [List.length_range] at hi
    rw [List.getElem_range]
    exact ⟨hi, rfl⟩
  · rintro ⟨hi, rfl⟩
    exact ⟨i, List.getElem?_range hi, rfl⟩

omit [Score α] in
theorem alone_pos (params : Params α) (i : Nat) : 0 < (params.alone i).numSamples := Nat.one_pos

theorem start_alone (i : Nat) : start (params.alone i) = [walker params i] := by
  have hseed : params.seed + UInt64.ofNat i + UInt64.ofNat 0 = params.seed + UInt64.ofNat i :=
    UInt64.add_zero _
  change [(⟨Path.start, Generator.ofSeed (params.seed + UInt64.ofNat i + UInt64.ofNat 0)⟩ :
    Walker α)] = _
  rw [hseed]
  rfl

/-! ## Side by side and alone -/

theorem takeSteps_alone {n i : Nat} {walkers : List (Walker α)} :
    takeSteps (lockstep p (params.alone i)) n (start (params.alone i)) = .ok walkers ↔
      ∃ w, walkers = [w] ∧ takeSteps (walk p params) n (walker params i) = .ok w := by
  rw [start_alone]
  refine takeSteps_forkJoin_eq_ok_iff.trans ?_
  constructor
  · intro h
    cases h with
    | cons hw hrest =>
      cases hrest
      exact ⟨_, rfl, hw⟩
  · rintro ⟨w, rfl, hw⟩
    exact .cons hw .nil

/-- After any number of steps the samples of a call stand where each of them
would stand alone. -/
theorem takeSteps_lockstep {n : Nat} {walkers : List (Walker α)} :
    takeSteps (lockstep p params) n (start params) = .ok walkers ↔
      walkers.length = params.numSamples ∧ ∀ (i : Nat) (w : Walker α), walkers[i]? = some w →
        takeSteps (lockstep p (params.alone i)) n (start (params.alone i)) = .ok [w] := by
  refine takeSteps_forkJoin_eq_ok_iff.trans (forall₂_iff_getElem?.trans ?_)
  rw [length_start, eq_comm]
  refine and_congr_right fun hlength => ⟨fun h i w hw => ?_, fun h i x w hx hw => ?_⟩
  · have hi : i < params.numSamples := hlength ▸ (List.getElem?_eq_some_iff.mp hw).1
    exact takeSteps_alone.mpr ⟨w, rfl, h i _ w (getElem?_start.mpr ⟨hi, rfl⟩) hw⟩
  · obtain ⟨-, rfl⟩ := getElem?_start.mp hx
    obtain ⟨w', hsame, hwalk⟩ := takeSteps_alone.mp (h i w hw)
    cases hsame
    exact hwalk

theorem failsAt_alone {k i : Nat} {e : DecodeError} :
    FailsAt (lockstep p (params.alone i)) k (start (params.alone i)) e ↔
      FailsAt (walk p params) k (walker params i) e := by
  rw [start_alone]
  refine failsAt_forkJoin_iff.trans ?_
  constructor
  · rintro ⟨j, w, hw, hfail, -⟩
    cases List.mem_singleton.mp (List.mem_of_getElem? hw)
    exact hfail
  · intro hfail
    refine ⟨0, _, rfl, hfail, fun j w k' e' hw hfail' => Or.inr ?_⟩
    have hj : j = 0 := Nat.lt_one_iff.mp (List.getElem?_eq_some_iff.mp hw).1
    cases List.mem_singleton.mp (List.mem_of_getElem? hw)
    exact ⟨hfail.unique hfail', hj ▸ Nat.le_refl _⟩

theorem fails_alone_iff {k i : Nat} {e : DecodeError} : Fails p (params.alone i) k e ↔
    (checkTemperature params.temperature = .error e ∧ k = 0) ∨
      (checkTemperature params.temperature = .ok () ∧ k < p.numSteps ∧
        FailsAt (walk p params) k (walker params i) e) := by
  constructor
  · rintro (h | ⟨h, hk, hfail⟩)
    · exact Or.inl ⟨h, rfl⟩
    · exact Or.inr ⟨h, hk, failsAt_alone.mp hfail⟩
  · rintro (⟨h, rfl⟩ | ⟨h, hk, hfail⟩)
    · exact .temperature h
    · exact .walk h hk (failsAt_alone.mpr hfail)

/-- A sample that is alone does not mind who works on it. -/
theorem fails_alone_withWorkers (w : Workers) {k i : Nat} {e : DecodeError} :
    Fails (p.withWorkers w) (params.alone i) k e ↔ Fails p (params.alone i) k e := by
  rw [fails_alone_iff, fails_alone_iff]
  exact Iff.rfl

/-- A call fails with the one of its samples that fails first. -/
theorem fails_iff_first (hsome : 0 < params.numSamples) {k : Nat} {e : DecodeError} :
    Fails p params k e ↔ ∃ i < params.numSamples, Fails p (params.alone i) k e ∧
      ∀ j < params.numSamples, ∀ k' e', Fails p (params.alone j) k' e' →
        k < k' ∨ k = k' ∧
          p.workers.rank params.numSamples i ≤ p.workers.rank params.numSamples j := by
  constructor
  · rintro (h | ⟨h, hk, hfail⟩)
    · -- the temperature is the same for all
      obtain ⟨i, hi, hfirst⟩ := p.workers.exists_first hsome
      refine ⟨i, hi, .temperature h, fun j hj k' e' hfail' => Or.inr ⟨?_, hfirst j hj⟩⟩
      rcases fails_alone_iff.mp hfail' with ⟨-, rfl⟩ | ⟨hok, -⟩
      · rfl
      · rw [h] at hok
        cases hok
    · obtain ⟨i, w, hw, hfail, hleast⟩ := failsAt_forkJoin_iff.mp hfail
      rw [length_start] at hleast
      obtain ⟨hi, rfl⟩ := getElem?_start.mp hw
      refine ⟨i, hi, fails_alone_iff.mpr (Or.inr ⟨h, hk, hfail⟩), fun j hj k' e' hfail' => ?_⟩
      rcases fails_alone_iff.mp hfail' with ⟨herror, -⟩ | ⟨-, -, hfail'⟩
      · rw [h] at herror
        cases herror
      · exact hleast j _ k' e' (getElem?_start.mpr ⟨hj, rfl⟩) hfail'
  · rintro ⟨i, hi, hfail, hleast⟩
    rcases fails_alone_iff.mp hfail with ⟨h, rfl⟩ | ⟨h, hk, hfail⟩
    · exact .temperature h
    · refine .walk h hk (failsAt_forkJoin_iff.mpr
        ⟨i, _, getElem?_start.mpr ⟨hi, rfl⟩, hfail, fun j w k' e' hw hfail' => ?_⟩)
      rw [length_start]
      obtain ⟨hj, rfl⟩ := getElem?_start.mp hw
      -- a step past the last unit is later than any other
      rcases Nat.lt_or_ge k' p.numSteps with hlt | hge
      · exact hleast j hj k' e' (fails_alone_iff.mpr (Or.inr ⟨h, hlt, hfail'⟩))
      · exact Or.inl (Nat.lt_of_lt_of_le hk hge)

/-! ## Answers -/

theorem run_eq_lockstep (hsome : 0 < params.numSamples) :
    run p params = checkTemperature params.temperature >>= fun _ =>
      takeSteps (lockstep p params) p.numSteps (start params) >>= fun walkers =>
        .ok (walkers.map candidate) := by
  rw [run, if_neg (Nat.ne_of_gt hsome)]
  rfl

theorem run_eq_ok_iff (hsome : 0 < params.numSamples) {candidates : List (Candidate α)} :
    run p params = .ok candidates ↔ checkTemperature params.temperature = .ok () ∧
      ∃ walkers, takeSteps (lockstep p params) p.numSteps (start params) = .ok walkers ∧
        candidates = walkers.map candidate := by
  rw [run_eq_lockstep hsome]
  exact checked_eq_ok_iff

theorem run_eq_error_iff (hsome : 0 < params.numSamples) {e : DecodeError} :
    run p params = .error e ↔ ∃ k, Fails p params k e := by
  rw [run_eq_lockstep hsome]
  refine checked_eq_error_iff.trans ?_
  constructor
  · rintro (h | ⟨htemperature, k, hk, hfail⟩)
    · exact ⟨0, .temperature h⟩
    · exact ⟨k, .walk htemperature hk hfail⟩
  · rintro ⟨k, h | ⟨htemperature, hk, hfail⟩⟩
    · exact Or.inl h
    · exact Or.inr ⟨htemperature, k, hk, hfail⟩

/-- What a call for many samples returns is what calls for each of them alone
return. -/
theorem run_alone_of_run (hsome : 0 < params.numSamples) {candidates : List (Candidate α)}
    (h : run p params = .ok candidates) : candidates.length = params.numSamples ∧
      ∀ (i : Nat) (c : Candidate α), candidates[i]? = some c →
        run p (params.alone i) = .ok [c] := by
  obtain ⟨htemperature, walkers, hwalkers, rfl⟩ := (run_eq_ok_iff hsome).mp h
  obtain ⟨hlength, halone⟩ := takeSteps_lockstep.mp hwalkers
  refine ⟨by rw [List.length_map, hlength], fun i c hc => ?_⟩
  rw [List.getElem?_map] at hc
  obtain ⟨w, hw, rfl⟩ := Option.map_eq_some_iff.mp hc
  exact (run_eq_ok_iff (alone_pos params i)).mpr ⟨htemperature, [w], halone i w hw, rfl⟩

/-- Where none of the samples fails alone, none is the first to fail. -/
theorem exists_run (hsome : 0 < params.numSamples)
    (h : ∀ i < params.numSamples, ∃ c, run p (params.alone i) = .ok [c]) :
    ∃ candidates, run p params = .ok candidates := by
  by_contra hnone
  obtain ⟨e, he⟩ := eq_error_of_not_ok hnone
  obtain ⟨k, hfail⟩ := (run_eq_error_iff hsome).mp he
  obtain ⟨i, hi, hfail, -⟩ := (fails_iff_first hsome).mp hfail
  have herror := (run_eq_error_iff (alone_pos params i)).mpr ⟨k, hfail⟩
  obtain ⟨c, hc⟩ := h i hi
  rw [hc] at herror
  cases herror

theorem run_eq_ok_iff_alone (hsome : 0 < params.numSamples) {candidates : List (Candidate α)} :
    run p params = .ok candidates ↔ candidates.length = params.numSamples ∧
      ∀ (i : Nat) (c : Candidate α), candidates[i]? = some c →
        run p (params.alone i) = .ok [c] := by
  refine ⟨run_alone_of_run hsome, fun ⟨hlength, halone⟩ => ?_⟩
  obtain ⟨candidates', hrun⟩ : ∃ candidates', run p params = .ok candidates' := by
    refine exists_run hsome fun i hi => ?_
    exact ⟨_, halone i _ (List.getElem?_eq_getElem (hlength.symm ▸ hi))⟩
  obtain ⟨hlength', halone'⟩ := run_alone_of_run hsome hrun
  rw [hrun]
  refine congrArg Except.ok (List.ext_getElem (hlength'.trans hlength.symm) fun i hi hi' => ?_)
  have hsame := halone' i _ (List.getElem?_eq_getElem hi)
  rw [halone i _ (List.getElem?_eq_getElem hi'), Except.ok.injEq] at hsame
  exact (List.head_eq_of_cons_eq hsame).symm

/-- A call fails with the first to fail, told by the workers' ranks. -/
theorem run_eq_error_iff_first (hsome : 0 < params.numSamples) {e : DecodeError} :
    run p params = .error e ↔ ∃ k, ∃ i < params.numSamples, Fails p (params.alone i) k e ∧
      ∀ j < params.numSamples, ∀ k' e', Fails p (params.alone j) k' e' →
        k < k' ∨ k = k' ∧
          p.workers.rank params.numSamples i ≤ p.workers.rank params.numSamples j :=
  (run_eq_error_iff hsome).trans (exists_congr fun _ => fails_iff_first hsome)

/-- One worker finds the foremost of the samples that fail at the earliest
step. -/
theorem run_one_eq_error_iff (hsome : 0 < params.numSamples) (hone : p.workers = .one)
    {e : DecodeError} :
    run p params = .error e ↔ ∃ k, ∃ i < params.numSamples, Fails p (params.alone i) k e ∧
      ∀ j < params.numSamples, ∀ k' e', Fails p (params.alone j) k' e' →
        k < k' ∨ k = k' ∧ i ≤ j := by
  rw [run_eq_error_iff_first hsome, hone]
  refine exists_congr fun k => exists_congr fun i => and_congr_right fun hi =>
    and_congr_right fun _ => forall₂_congr fun j hj => ?_
  rw [Workers.rank_one hi, Workers.rank_one hj]

/-- Of the samples that fail at the earliest step, several workers may report
any. -/
theorem exists_reported {k i : Nat} {e : DecodeError} (hi : i < params.numSamples)
    (hfail : Fails p (params.alone i) k e)
    (hearliest : ∀ j < params.numSamples, ∀ k' e', Fails p (params.alone j) k' e' → k ≤ k') :
    ∃ early, run (p.withWorkers (.several early)) params = .error e := by
  refine ⟨fun _ => [i], (run_eq_error_iff_first (Nat.zero_lt_of_lt hi)).mpr
    ⟨k, i, hi, (fails_alone_withWorkers _).mpr hfail, fun j hj k' e' hfail' => ?_⟩⟩
  have hle : k ≤ k' := hearliest j hj k' e' ((fails_alone_withWorkers _).mp hfail')
  refine (Nat.lt_or_eq_of_le hle).imp_right fun hk => ⟨hk, ?_⟩
  exact (Workers.rank_several_self _ i).trans_le (Nat.zero_le _)

/-- Samples are drawn independently, whoever works on them.  A call for some
succeeds if those for each of them alone do, and gives what they give.
Otherwise it fails with the one that fails first: at the earliest step, and
there the one that comes in first.  With one worker that is the foremost, but
among several any that fails at the earliest step can be it.  What was drawn
stays the same when more is asked for, and after any number of steps no sample
shows a trace of the others. -/
theorem run_independent (p : Position α) (params : Params α) (hsome : 0 < params.numSamples) :
    ((∃ candidates, run p params = .ok candidates) ↔
      ∀ i < params.numSamples, ∃ c, run p (params.alone i) = .ok [c]) ∧
    (∀ candidates, run p params = .ok candidates ↔ candidates.length = params.numSamples ∧
      ∀ (i : Nat) (c : Candidate α), candidates[i]? = some c →
        run p (params.alone i) = .ok [c]) ∧
    (∀ i e, run p (params.alone i) = .error e ↔ ∃ k, Fails p (params.alone i) k e) ∧
    (∀ e, run p params = .error e ↔
      ∃ k, ∃ i < params.numSamples, Fails p (params.alone i) k e ∧
        ∀ j < params.numSamples, ∀ k' e', Fails p (params.alone j) k' e' →
          k < k' ∨ k = k' ∧
            p.workers.rank params.numSamples i ≤ p.workers.rank params.numSamples j) ∧
    (p.workers = .one → ∀ e, run p params = .error e ↔
      ∃ k, ∃ i < params.numSamples, Fails p (params.alone i) k e ∧
        ∀ j < params.numSamples, ∀ k' e', Fails p (params.alone j) k' e' →
          k < k' ∨ k = k' ∧ i ≤ j) ∧
    (∀ k e, ∀ i < params.numSamples, Fails p (params.alone i) k e →
      (∀ j < params.numSamples, ∀ k' e', Fails p (params.alone j) k' e' → k ≤ k') →
        ∃ early, run (p.withWorkers (.several early)) params = .error e) ∧
    (∀ more candidates, params.numSamples ≤ more →
      run p { params with numSamples := more } = .ok candidates →
        run p params = .ok (candidates.take params.numSamples)) ∧
    (∀ n walkers, takeSteps (lockstep p params) n (start params) = .ok walkers ↔
      walkers.length = params.numSamples ∧ ∀ (i : Nat) (w : Walker α), walkers[i]? = some w →
        takeSteps (lockstep p (params.alone i)) n (start (params.alone i)) = .ok [w]) := by
  refine ⟨⟨fun ⟨candidates, h⟩ i hi => ?_, exists_run hsome⟩,
    fun candidates => run_eq_ok_iff_alone hsome, fun i e => run_eq_error_iff (alone_pos params i),
    fun e => run_eq_error_iff_first hsome, fun hone e => run_one_eq_error_iff hsome hone,
    fun k e i hi => exists_reported hi, fun more candidates hle h => ?_,
    fun n walkers => takeSteps_lockstep⟩
  · obtain ⟨hlength, halone⟩ := run_alone_of_run hsome h
    exact ⟨_, halone i _ (List.getElem?_eq_getElem (hlength.symm ▸ hi))⟩
  · obtain ⟨hlength, halone⟩ := run_alone_of_run (Nat.lt_of_lt_of_le hsome hle) h
    have hlength : candidates.length = more := hlength
    refine (run_eq_ok_iff_alone hsome).mpr ⟨?_, fun i c hc => ?_⟩
    · rw [List.length_take, hlength, Nat.min_eq_left hle]
    · rw [List.getElem?_take] at hc
      split at hc
      · exact halone i c hc
      · cases hc

end Sample

/-- The first unit stays or disbands.  When it disbands there is no row for
the second, which else stays or convoys; and when that one stays, too, there
is no row for the third. -/
def forkingScorer : Scorer Stark := fun _ prior =>
  match prior.map Order.kind with
  | [] => .ok (Stark.row 13 [(0, 0), (6, 0)])
  | [.hold] => .ok (Stark.row 13 [(0, 0), (3, 0)])
  | [.hold, .convoy] => .ok (Stark.row 13 [(0, 0)])
  | [.hold, .hold] => .error (.inference "third unit")
  | _ => .error (.unavailable "second unit")

def forking : Position Stark := { Stark.position 3 [] with scorer := forkingScorer }

def forkingSamples (seed : UInt64) : Sample.Params Stark :=
  { numSamples := 2, temperature := 1, topK := 0, constrained := true, seed }

/-- The first unit stays or disbands, and there is no row for the second in
either case. -/
def strandedScorer : Scorer Stark := fun _ prior =>
  match prior.map Order.kind with
  | [] => .ok (Stark.row 11 [(0, 0), (6, 0)])
  | [.hold] => .error (.unavailable "the first stays")
  | _ => .error (.unavailable "the first is gone")

def stranded : Position Stark := { Stark.position 2 [] with scorer := strandedScorer }

/-- From seed 15 both samples get through.  From seed 0 both fail, the one
that stands first at the third unit and the other at the second; so it is
the other's failure that is reported.  Where both fail at the second unit, it
is that of the first sample with one worker, and that of the other if the
other comes in first. -/
theorem forking_independent :
    0 < (forkingSamples 15).numSamples ∧
    (∃ candidates, Sample.run forking (forkingSamples 15) = .ok candidates ∧
      candidates.length = 2 ∧ ∀ (i : Nat) (c : Candidate Stark), candidates[i]? = some c →
        Sample.run forking ((forkingSamples 15).alone i) = .ok [c]) ∧
    (Sample.run forking ((forkingSamples 0).alone 0) = .error (.scorer (.inference "third unit")) ∧
      Sample.run forking ((forkingSamples 0).alone 1)
        = .error (.scorer (.unavailable "second unit")) ∧
      Sample.run forking (forkingSamples 0) = .error (.scorer (.unavailable "second unit"))) ∧
    (∃ k, ∃ i < 2, Sample.Fails forking ((forkingSamples 0).alone i) k
        (.scorer (.unavailable "second unit")) ∧
      ∀ j < 2, ∀ k' e', Sample.Fails forking ((forkingSamples 0).alone j) k' e' →
        k < k' ∨ k = k' ∧ i ≤ j) ∧
    (Sample.run stranded ((forkingSamples 0).alone 0)
        = .error (.scorer (.unavailable "the first stays")) ∧
      Sample.run stranded ((forkingSamples 0).alone 1)
        = .error (.scorer (.unavailable "the first is gone")) ∧
      Sample.run stranded (forkingSamples 0)
        = .error (.scorer (.unavailable "the first stays")) ∧
      Sample.run (stranded.withWorkers (.several fun _ => [1])) (forkingSamples 0)
        = .error (.scorer (.unavailable "the first is gone"))) := by
  have hfirst : Sample.run forking ((forkingSamples 0).alone 0)
      = .error (.scorer (.inference "third unit")) := by decide +kernel
  have hsecond : Sample.run forking ((forkingSamples 0).alone 1)
      = .error (.scorer (.unavailable "second unit")) := by decide +kernel
  have hboth : Sample.run forking (forkingSamples 0)
      = .error (.scorer (.unavailable "second unit")) := by decide +kernel
  have hthrough : ∀ i < 2, Sample.run forking ((forkingSamples 15).alone i) = .ok
      [{ choices := [⟨0, .hold 0⟩, ⟨3, ⟨.convoy, 1, none⟩⟩, ⟨0, .hold 2⟩], score := (0 : Float)
         origin := .sample }] := by decide +kernel
  obtain ⟨-, -, -, -, hone, -⟩ :=
    Sample.run_independent forking (forkingSamples 0) (by decide)
  obtain ⟨hsome, halone, -⟩ :=
    Sample.run_independent forking (forkingSamples 15) (by decide)
  obtain ⟨candidates, hrun⟩ := hsome.mpr fun i hi => ⟨_, hthrough i hi⟩
  exact ⟨by decide, ⟨candidates, hrun, (halone candidates).mp hrun⟩, ⟨hfirst, hsecond, hboth⟩,
    (hone rfl _).mp hboth, by decide +kernel⟩

end OrderDecoding
