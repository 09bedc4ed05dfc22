/-
# `Proofs.Sparing` — settings are refused by their check alone

What a check of settings can find (`DecodeError.OfSettings`) is also what some
strategies look at again before they start: a number of samples or of candidates,
a temperature.  Once settings have passed they do not find it a second time, and
whatever else a run can come to is not about settings.  That does not depend on
the arithmetic of scores, so unlike the list of all that can go wrong it holds
for every kind of score.
-/
import Mathlib
import OrderDecoding.Proofs.Faults
import OrderDecoding.Proofs.Overriding

namespace OrderDecoding

/-- It does not fail for what a check of settings can find. -/
def SparesSettings {β : Type} (x : Except DecodeError β) : Prop :=
  FailsOnly (fun e => ¬ e.OfSettings) x

variable {α : Type} [Score α] {p : Position α}

/-! ## Rows and choices -/

namespace Position

theorem spares_rowAt (p : Position α) (step : Nat) (prior : List Order) :
    SparesSettings (p.rowAt step prior) := by
  unfold rowAt
  split
  · exact failsOnly_error nofun
  · split
    · exact failsOnly_error nofun
    · refine FailsOnly.bind ?_ fun _ _ => failsOnly_ok _
      unfold checkRow
      split
      · exact failsOnly_error nofun
      · split
        · exact failsOnly_error nofun
        · exact failsOnly_ok _

theorem spares_scores (p : Position α) (s : Sequence) : SparesSettings (p.scores s) :=
  p.spares_rowAt _ _

omit [Score α] in
theorem spares_choose (p : Position α) (step index : Nat) :
    SparesSettings (p.choose step index) := by
  unfold choose
  split
  · exact failsOnly_error nofun
  · split
    · exact failsOnly_error nofun
    · exact failsOnly_ok _

theorem spares_sequenceLogProb (p : Position α) (choices : List Choice) :
    SparesSettings (p.sequenceLogProb choices) := by
  unfold sequenceLogProb
  split
  · exact failsOnly_error nofun
  · refine FailsOnly.bind ?_ fun _ _ => FailsOnly.bind ?_ fun _ _ => failsOnly_ok _
    · rw [forM_eq_mapM]
      refine FailsOnly.bind (failsOnly_mapM fun entry _ => ?_) fun _ _ => failsOnly_ok _
      unfold checkChoice
      split
      · exact failsOnly_error nofun
      · refine (p.spares_choose _ _).bind fun _ _ => ?_
        split
        · exact failsOnly_error nofun
        · exact failsOnly_ok _
    · unfold replay
      split
      · exact failsOnly_error nofun
      · exact failsOnly_mapM fun step _ => p.spares_rowAt _ _

end Position

/-! ## Strategies -/

theorem Greedy.spares_step (p : Position α) (c : Constraint) (path : Path α) :
    SparesSettings (Greedy.step p c path) := by
  refine (p.spares_scores _).bind fun row _ => ?_
  split
  · exact failsOnly_error nofun
  · exact FailsOnly.bind (p.spares_choose _ _) fun _ _ => failsOnly_ok _

theorem Greedy.spares_decode {temperature : α} (h : checkTemperature temperature = .ok ())
    (constrained : Bool) : SparesSettings (Greedy.decode p temperature constrained) := by
  refine (failsOnly_of_exists ⟨(), h⟩).bind fun _ _ => FailsOnly.bind ?_ fun _ _ => failsOnly_ok _
  exact failsOnly_takeSteps fun _ path _ _ => Greedy.spares_step p _ path

theorem Beam.spares_row (p : Position α) (c : Constraint) (path : Path α) :
    SparesSettings (Beam.row p c path) := by
  refine (p.spares_scores _).bind fun _ _ => ?_
  dsimp only
  split
  · exact failsOnly_ok _
  · exact failsOnly_error nofun

theorem Beam.spares_step (p : Position α) (c : Constraint) (width : Nat) (paths : List (Path α)) :
    SparesSettings (Beam.step p c width paths) :=
  FailsOnly.bind (failsOnly_forkJoin fun path _ => Beam.spares_row p c path) fun _ _ =>
    failsOnly_mapM fun _ _ => (p.spares_choose _ _).bind fun _ _ => failsOnly_ok _

theorem Beam.spares_search (width : Nat) (constrained : Bool) :
    SparesSettings (Beam.search p width constrained) := by
  unfold Beam.search
  split
  · exact failsOnly_error nofun
  · split
    · exact failsOnly_ok _
    · refine FailsOnly.bind (OrderDecoding.failsOnly_takeSteps fun _ paths _ _ =>
        Beam.spares_step p _ width paths) fun paths _ => ?_
      cases paths with
      | nil => exact failsOnly_error nofun
      | cons best rest => exact failsOnly_ok _

theorem Sample.spares_walk (p : Position α) (params : Sample.Params α) (w : Sample.Walker α) :
    SparesSettings (Sample.walk p params w) := by
  refine (p.spares_scores _).bind fun _ _ => ?_
  dsimp only
  split
  · split
    · exact failsOnly_error nofun
    · exact FailsOnly.bind (p.spares_choose _ _) fun _ _ => failsOnly_ok _
  · exact failsOnly_error nofun

theorem Sample.spares_run {params : Sample.Params α} (hsome : params.numSamples ≠ 0)
    (h : checkTemperature params.temperature = .ok ()) : SparesSettings (Sample.run p params) := by
  rw [Sample.run, if_neg hsome]
  refine (failsOnly_of_exists ⟨(), h⟩).bind fun _ _ => FailsOnly.bind ?_ fun _ _ => failsOnly_ok _
  exact failsOnly_takeSteps fun _ _ _ _ =>
    failsOnly_forkJoin fun w _ => Sample.spares_walk p params w

theorem Pool.spares_rescore (p : Position α) (candidates : List (Candidate α)) :
    SparesSettings (Pool.rescore p candidates) :=
  failsOnly_forkJoin fun _ _ => (p.spares_sequenceLogProb _).bind fun _ _ => failsOnly_ok _

theorem Pool.spares_generate {params : Pool.Params α} (hsome : params.numCandidates ≠ 0)
    (h : checkTemperature params.temperature = .ok ()) :
    SparesSettings (Pool.generate p params) := by
  rw [Pool.generate, if_neg hsome]
  refine (Beam.spares_search _ _).bind fun found _ => FailsOnly.bind ?_ fun sampled _ =>
    Pool.spares_rescore p _
  unfold Pool.topUp
  dsimp only
  split
  · exact failsOnly_ok _
  · next hsamples => exact Sample.spares_run hsamples h

/-! ## Decoders -/

namespace Decoder

theorem spares_position (d : Decoder α) (units : UnitList) : SparesSettings (d.position units) := by
  unfold position
  split
  · exact failsOnly_error nofun
  · refine FailsOnly.bind ?_ fun _ _ => failsOnly_ok _
    unfold Position.ofUnits
    split
    · exact failsOnly_error nofun
    · exact failsOnly_ok _

theorem spares_greedy (d : Decoder α) (units : UnitList) : SparesSettings (d.greedy units) :=
  (d.spares_position units).bind fun _ _ =>
    Greedy.spares_decode (Settings.passed_of_check d.checked).temperature _

theorem spares_beam (d : Decoder α) (units : UnitList) : SparesSettings (d.beam units) :=
  (d.spares_position units).bind fun _ _ => Beam.spares_search _ _

theorem spares_sample (d : Decoder α) (units : UnitList) : SparesSettings (d.sample units).1 := by
  have hpassed := Settings.passed_of_check d.checked
  exact (d.spares_position units).bind fun _ _ =>
    Sample.spares_run hpassed.samples.ne' hpassed.temperature

theorem spares_candidates (d : Decoder α) (units : UnitList) :
    SparesSettings (d.candidates units).1 := by
  have hpassed := Settings.passed_of_check d.checked
  exact (d.spares_position units).bind fun _ _ =>
    Pool.spares_generate hpassed.candidates.ne' hpassed.temperature

end Decoder
end OrderDecoding
