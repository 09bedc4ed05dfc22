/-
# `Proofs.Agreement` — a scorer is asked about histories only

What a scorer would say to a question that is never put to it cannot matter.
The questions that are put are about the units up to some step and a history
of the steps before (`Position.IsHistory`), and two positions AGREE on their
first `n` steps (`Position.Agree`) if they have these units in common and
give the same answers to these questions.  Then every strategy does the same
at both for `n` steps, failures included: from a path that holds a history
the next step is the same, and what it leads to holds a history again.  Where
there is more than one path it takes the same workers for that, too.

If a position is bound to another scorer that agrees with its own on all
histories, nothing that decoding returns changes
(`answers_depend_on_histories_only`).  That includes pools and rescoring,
where the choices may come from anywhere: they are checked to be a history
before the first question, and refused without one if they are not.
-/
import OrderDecoding.Proofs.Histories

namespace OrderDecoding

variable {α : Type} {p q : Position α} {n : Nat}

/-! ## The same units -/

/-- The first `n` units are the same, of the same map in the same phase. -/
structure Position.SameStart (n : Nat) (p q : Position α) : Prop where
  vocab : p.vocab = q.vocab
  phase : p.units.phase = q.units.phase
  areas : p.units.areas.take n = q.units.areas.take n

namespace Position.SameStart

theorem symm (h : p.SameStart n q) : q.SameStart n p := ⟨h.vocab.symm, h.phase.symm, h.areas.symm⟩

theorem min_numSteps (h : p.SameStart n q) : min n p.numSteps = min n q.numSteps := by
  have hlength := congrArg List.length h.areas
  rwa [List.length_take, List.length_take] at hlength

theorem lt_numSteps_iff (h : p.SameStart n q) {step : Nat} (hlt : step < n) :
    step < p.numSteps ↔ step < q.numSteps := by
  have hmin := h.min_numSteps
  omega

/-- Lists that end within the same units are of the same length. -/
theorem numSteps_eq (h : p.SameStart n q) (hlt : p.numSteps < n) : p.numSteps = q.numSteps := by
  have hmin := h.min_numSteps
  omega

theorem getElem?_areas (h : p.SameStart n q) {step : Nat} (hlt : step < n) :
    p.units.areas[step]? = q.units.areas[step]? := by
  rw [← List.getElem?_take_of_lt hlt, h.areas, List.getElem?_take_of_lt hlt]

theorem upTo_eq (h : p.SameStart n q) {step : Nat} (hlt : step < n) :
    p.units.upTo step = q.units.upTo step := by
  have hmin : min (step + 1) n = step + 1 := Nat.min_eq_left hlt
  rw [UnitList.upTo, UnitList.upTo, ← hmin, ← List.take_take, h.areas, List.take_take]

theorem choose_eq (h : p.SameStart n q) {step : Nat} (hlt : step < n) (index : Nat) :
    p.choose step index = q.choose step index := by
  unfold choose
  rw [h.getElem?_areas hlt, h.vocab, h.phase]
  cases hunit : q.units.areas[step]? with
  | some unit => rfl
  | none =>
    -- the message of the refusal quotes the number of units
    have hend : q.numSteps ≤ step := List.getElem?_eq_none_iff.mp hunit
    have hlength : p.units.length = q.units.length :=
      (h.symm.numSteps_eq (Nat.lt_of_le_of_lt hend hlt)).symm
    rw [hlength]

theorem constraint_eq (h : p.SameStart n q) (constrained : Bool) :
    p.constraint constrained = q.constraint constrained := by
  rw [constraint, constraint, h.vocab]

end Position.SameStart

variable [Score α]

theorem Position.SameStart.checkRow_eq (h : p.SameStart n q) (step : Nat) (row : List α) :
    p.checkRow step row = q.checkRow step row := by
  rw [checkRow, checkRow, h.vocab]

/-! ## The same answers -/

/-- The first `n` steps cannot be told apart: the units are the same, and
the scorers answer alike to what can be asked there. -/
structure Position.Agree (n : Nat) (p q : Position α) : Prop extends p.SameStart n q where
  scorer : ∀ step < n, ∀ prior, p.IsHistory step prior →
    p.scorer (p.units.upTo step) prior = q.scorer (p.units.upTo step) prior

namespace Position.Agree

theorem rowAt_eq (h : p.Agree n q) {step : Nat} (hlt : step < n) {prior : List Order}
    (hprior : p.IsHistory step prior) : p.rowAt step prior = q.rowAt step prior := by
  have hend : step < p.units.length ↔ step < q.units.length := h.lt_numSteps_iff hlt
  unfold rowAt
  rcases Nat.lt_or_ge step q.units.length with hq | hq
  · rw [if_neg (Nat.not_le.mpr (hend.mpr hq)), if_neg (Nat.not_le.mpr hq),
      h.scorer step hlt prior hprior, h.upTo_eq hlt]
    simp only [h.checkRow_eq]
  · have hp : p.units.length ≤ step := Nat.not_lt.mp fun hp => Nat.not_lt.mpr hq (hend.mp hp)
    have hlength : p.units.length = q.units.length := h.numSteps_eq (Nat.lt_of_le_of_lt hp hlt)
    rw [if_pos hp, if_pos hq, hlength]

theorem scores_eq (h : p.Agree n q) {i : Nat} (hlt : i < n) {path : Path α}
    (hpath : path.Grown p i) : p.scores path.sequence = q.scores path.sequence := by
  rw [scores, scores, hpath.length]
  exact h.rowAt_eq hlt hpath.history

/-! ## The same steps -/

theorem greedy_step_eq (h : p.Agree n q) (c : Constraint) {i : Nat} (hlt : i < n) {path : Path α}
    (hpath : path.Grown p i) : Greedy.step p c path = Greedy.step q c path := by
  unfold Greedy.step
  simp only [h.scores_eq hlt hpath, hpath.length, h.choose_eq hlt]

theorem walk_eq (h : p.Agree n q) (params : Sample.Params α) {i : Nat} (hlt : i < n)
    {w : Sample.Walker α} (hpath : w.path.Grown p i) :
    Sample.walk p params w = Sample.walk q params w := by
  unfold Sample.walk
  simp only [h.scores_eq hlt hpath, hpath.length, h.choose_eq hlt, h.vocab]

theorem beam_row_eq (h : p.Agree n q) (c : Constraint) {i : Nat} (hlt : i < n) {path : Path α}
    (hpath : path.Grown p i) : Beam.row p c path = Beam.row q c path := by
  unfold Beam.row
  rw [h.scores_eq hlt hpath]

theorem beam_step_eq (h : p.Agree n q) (hworkers : p.workers = q.workers) (c : Constraint)
    (width : Nat) {i : Nat} (hlt : i < n) {paths : List (Path α)}
    (hpaths : ∀ path ∈ paths, path.Grown p i) :
    Beam.step p c width paths = Beam.step q c width paths := by
  have hrows : p.workers.forkJoin paths (Beam.row p c) =
      q.workers.forkJoin paths (Beam.row q c) := by
    rw [hworkers]
    exact Workers.forkJoin_congr fun path hpath => h.beam_row_eq c hlt (hpaths path hpath)
  unfold Beam.step
  rw [← hrows]
  refine bind_congr_ok fun rows hrows => mapM_congr fun e he => ?_
  obtain ⟨path, hpath, row, -, he⟩ :=
    (Beam.mem_flatMap_extensions (Workers.forkJoin_eq_ok_iff.mp hrows)).mp
      (Beam.mem_of_mem_survivors he).1
  obtain ⟨rfl, -⟩ := Beam.mem_extensions_iff.mp he
  unfold Beam.follow
  rw [(hpaths _ hpath).length, h.choose_eq hlt]

/-! ## The same runs -/

theorem takeSteps_greedy (h : p.Agree n q) (c : Constraint) {m : Nat} (hle : m ≤ n) :
    takeSteps (Greedy.step p c) m Path.start = takeSteps (Greedy.step q c) m Path.start :=
  takeSteps_congr fun _ hk _ hpath =>
    h.greedy_step_eq c (Nat.lt_of_lt_of_le hk hle) (Greedy.grown_takeSteps hpath)

/-- A single sample goes the same way whoever works on it; several do so with
the same workers. -/
theorem takeSteps_lockstep (h : p.Agree n q) {params : Sample.Params α}
    (hworkers : params.numSamples = 1 ∨ p.workers = q.workers) {m : Nat} (hle : m ≤ n) :
    takeSteps (Sample.lockstep p params) m (Sample.start params) =
      takeSteps (Sample.lockstep q params) m (Sample.start params) := by
  refine takeSteps_congr fun k hk walkers hwalkers => ?_
  have hwalk : ∀ w ∈ walkers, Sample.walk p params w = Sample.walk q params w := fun w hw =>
    h.walk_eq params (Nat.lt_of_lt_of_le hk hle) (Sample.grown_takeSteps hwalkers w hw)
  unfold Sample.lockstep
  rcases hworkers with hone | hsame
  · have hlength : walkers.length = 1 := (Sample.takeSteps_lockstep.mp hwalkers).1.trans hone
    obtain ⟨w, rfl⟩ := List.length_eq_one_iff.mp hlength
    rw [Workers.forkJoin_singleton, Workers.forkJoin_singleton, hwalk w List.mem_cons_self]
  · rw [hsame]
    exact Workers.forkJoin_congr hwalk

theorem takeSteps_beam (h : p.Agree n q) (hworkers : p.workers = q.workers) (c : Constraint)
    (width : Nat) {m : Nat} (hle : m ≤ n) :
    takeSteps (Beam.step p c width) m [Path.start] =
      takeSteps (Beam.step q c width) m [Path.start] :=
  takeSteps_congr fun _ hk _ hpaths =>
    h.beam_step_eq hworkers c width (Nat.lt_of_lt_of_le hk hle) (Beam.grown_takeSteps hpaths)

end Position.Agree

/-! ## Another scorer -/

/-- Whatever can be asked of decoding has the same answer at both
positions. -/
structure Position.SameAnswers (p q : Position α) : Prop where
  greedy : ∀ temperature constrained,
    Greedy.decode p temperature constrained = Greedy.decode q temperature constrained
  beam : ∀ width constrained, Beam.search p width constrained = Beam.search q width constrained
  sample : ∀ params, Sample.run p params = Sample.run q params
  generate : ∀ params, Pool.generate p params = Pool.generate q params
  build : ∀ beam sampled n, Pool.build p beam sampled n = Pool.build q beam sampled n
  rescore : ∀ candidates, Pool.rescore p candidates = Pool.rescore q candidates

/-- The units of a position bound to another scorer. -/
def Position.withScorer (p : Position α) (scorer : Scorer α) : Position α := { p with scorer }

section WithScorer

variable {scorer : Scorer α}

/-- The scorer answers as the position's own to a history of the steps
before. -/
def Position.AnswersAlike (p : Position α) (scorer : Scorer α) : Prop :=
  ∀ step < p.numSteps, ∀ prior, p.IsHistory step prior →
    p.scorer (p.units.upTo step) prior = scorer (p.units.upTo step) prior

omit [Score α] in
theorem Position.AnswersAlike.agree (h : p.AnswersAlike scorer) :
    p.Agree p.numSteps (p.withScorer scorer) :=
  { vocab := rfl, phase := rfl, areas := rfl, scorer := h }

/-- Fixed choices are checked alike, and replayed only if they are a
history. -/
theorem Position.AnswersAlike.sequenceLogProb_eq (h : p.AnswersAlike scorer)
    (choices : List Choice) :
    p.sequenceLogProb choices = (p.withScorer scorer).sequenceLogProb choices := by
  unfold sequenceLogProb
  by_cases hmany : p.units.length < choices.length
  · have hmany' : (p.withScorer scorer).units.length < choices.length := hmany
    rw [if_pos hmany, if_pos hmany']
    rfl
  · have hmany' : ¬ (p.withScorer scorer).units.length < choices.length := hmany
    rw [if_neg hmany, if_neg hmany']
    refine bind_congr_ok fun _ hchecks => ?_
    have hhistory := isHistory_of_checks hchecks
    have hreplay : p.replay (choices.map (·.order)) =
        (p.withScorer scorer).replay (choices.map (·.order)) := by
      unfold replay
      rw [List.length_map, if_neg hmany, if_neg hmany']
      refine mapM_congr fun step hstep => ?_
      have hlt : step < choices.length := List.mem_range.mp hstep
      exact h.agree.rowAt_eq (Nat.lt_of_lt_of_le hlt (Nat.not_lt.mp hmany))
        (hhistory.take (Nat.le_of_lt hlt))
    rw [hreplay]

/-- Scorers that answer alike to histories decode alike. -/
theorem Position.AnswersAlike.sameAnswers (h : p.AnswersAlike scorer) :
    p.SameAnswers (p.withScorer scorer) := by
  have hgreedy : ∀ temperature constrained, Greedy.decode p temperature constrained =
      Greedy.decode (p.withScorer scorer) temperature constrained := by
    intro temperature constrained
    unfold Greedy.decode takeAll
    rw [h.agree.takeSteps_greedy _ (Nat.le_refl _)]
    rfl
  have hbeam : ∀ width constrained, Beam.search p width constrained =
      Beam.search (p.withScorer scorer) width constrained := by
    intro width constrained
    unfold Beam.search takeAll
    simp only [h.agree.takeSteps_beam rfl _ width (Nat.le_refl _)]
    rfl
  have hsample : ∀ params, Sample.run p params = Sample.run (p.withScorer scorer) params := by
    intro params
    by_cases hnone : params.numSamples = 0
    · rw [Sample.run, Sample.run, if_pos hnone, if_pos hnone]
    · have hsome := Nat.pos_of_ne_zero hnone
      rw [Sample.run_eq_lockstep hsome, Sample.run_eq_lockstep hsome,
        h.agree.takeSteps_lockstep (Or.inr rfl) (Nat.le_refl _)]
      rfl
  have hrescore : ∀ candidates, Pool.rescore p candidates =
      Pool.rescore (p.withScorer scorer) candidates := by
    intro candidates
    exact Workers.forkJoin_congr fun c _ => by rw [h.sequenceLogProb_eq]
  have hbuild : ∀ beam sampled n, Pool.build p beam sampled n =
      Pool.build (p.withScorer scorer) beam sampled n :=
    fun beam sampled n => hrescore _
  refine ⟨hgreedy, hbeam, hsample, fun params => ?_, hbuild, hrescore⟩
  unfold Pool.generate Pool.topUp
  simp only [hbeam, hsample, hbuild]

end WithScorer

/-- No answer of decoding depends on what the scorer says to anything but a
history: another scorer that agrees on these changes nothing.  Without units
there is nothing to ask, and any other scorer will do. -/
theorem answers_depend_on_histories_only (p : Position α) (scorer : Scorer α) :
    ((∀ step < p.numSteps, ∀ prior, prior.length = step → p.IsHistory step prior →
        p.scorer (p.units.upTo step) prior = scorer (p.units.upTo step) prior) →
      p.SameAnswers (p.withScorer scorer)) ∧
    (p.numSteps = 0 → p.SameAnswers (p.withScorer scorer)) := by
  refine ⟨fun h => ?_, fun hnone => ?_⟩
  · have halike : p.AnswersAlike scorer := fun step hstep prior hprior =>
      h step hstep prior (hprior.length (Nat.le_of_lt hstep)) hprior
    exact halike.sameAnswers
  · have halike : p.AnswersAlike scorer := fun step hstep => by
      rw [hnone] at hstep
      cases hstep
    exact halike.sameAnswers

/-- The scorer of `forking`, but for one list of orders: the first unit is
in area 0, and no entry read for it is an order of area 2. -/
def tamperedScorer : Scorer Stark := fun units prior =>
  if prior = [.hold 2] then .error (.inference "no such unit") else forkingScorer units prior

/-- The list is as long as a history of the second step, and still nobody
asks about it. -/
theorem forking_tampered :
    ([Order.hold 2].length = 1 ∧
      forking.scorer (forking.units.upTo 1) [.hold 2] = .ok (Stark.row 13 [(0, 0), (3, 0)]) ∧
      tamperedScorer (forking.units.upTo 1) [.hold 2] = .error (.inference "no such unit")) ∧
    (∀ step < forking.numSteps, ∀ prior, prior.length = step → forking.IsHistory step prior →
      forking.scorer (forking.units.upTo step) prior =
        tamperedScorer (forking.units.upTo step) prior) ∧
    forking.SameAnswers (forking.withScorer tamperedScorer) ∧
    (Stark.position 0 []).numSteps = 0 ∧
    (Stark.position 0 []).SameAnswers ((Stark.position 0 []).withScorer tamperedScorer) := by
  have halike : ∀ step < forking.numSteps, ∀ prior, prior.length = step →
      forking.IsHistory step prior → forking.scorer (forking.units.upTo step) prior =
        tamperedScorer (forking.units.upTo step) prior := by
    rintro step - prior hlength hhistory
    refine (if_neg ?_).symm
    rintro rfl
    cases hlength
    cases hhistory with
    | cons hreads _ =>
      obtain ⟨index, hindex, horder⟩ := hreads
      have hnone : ∀ index < 13, Vocabulary.orderAt ⟨3⟩ index 0 .movement ≠ .ok (.hold 2) := by
        decide
      exact hnone index hindex horder
  obtain ⟨hsame, -⟩ := answers_depend_on_histories_only forking tamperedScorer
  obtain ⟨-, hempty⟩ := answers_depend_on_histories_only (Stark.position 0 []) tamperedScorer
  exact ⟨by decide +kernel, halike, hsame halike, rfl, hempty rfl⟩

end OrderDecoding
