/-
# `Proofs.Building` — what is built claims nothing

In the build phase a destination entry is read as a build there, and a
build claims no area, and neither does any other order.  So no path ever
has a claim on it (`Path.Held.claimed_eq_nil`), and a constraint without
claims gives a row back as it is and not relaxed (`constrain_eq_unrelaxed`).
Every step is then the same with the constraint as without it, and with the
steps the runs are, whatever they come to: a value or an error.
-/
import OrderDecoding.Proofs.Histories

namespace OrderDecoding

variable {α : Type}

/-! ## Nothing is claimed -/

theorem Path.Extends.claimed_eq {p : Position α} (hphase : p.units.phase = .build)
    {path path' : Path α} (h : path.Extends p path') :
    path'.sequence.claimed = path.sequence.claimed := by
  obtain ⟨index, choice, score, hchoose, rfl⟩ := h
  exact Position.claimed_push hphase hchoose path.sequence

variable [Score α]

theorem Path.Held.claimed_eq_nil {p : Position α} (hphase : p.units.phase = .build) {n : Nat}
    {path : Path α} (h : path.Held p n) : path.sequence.claimed = [] :=
  h.invariant (fun _ (path : Path α) => path.sequence.claimed = []) rfl
    fun _ _ _ hs hextends => (hextends.claimed_eq hphase).trans hs

/-! ## Steps -/

section

variable {p : Position α} {path : Path α} (h : path.sequence.claimed = []) (c c' : Constraint)

include h

theorem Greedy.step_of_unclaimed : Greedy.step p c path = Greedy.step p c' path := by
  simp only [Greedy.step, Constraint.constrain_eq_unrelaxed (Or.inr h)]

theorem Beam.row_of_unclaimed : Beam.row p c path = Beam.row p c' path := by
  simp only [Beam.row, Constraint.constrain_eq_unrelaxed (Or.inr h)]

end

theorem Beam.step_of_unclaimed {p : Position α} {paths : List (Path α)}
    (h : ∀ path ∈ paths, path.sequence.claimed = []) (c c' : Constraint) (width : Nat) :
    Beam.step p c width paths = Beam.step p c' width paths := by
  rw [Beam.step, Beam.step,
    Workers.forkJoin_congr fun path hpath => row_of_unclaimed (h path hpath) c c']

theorem Sample.walk_of_unclaimed {p : Position α} {w : Sample.Walker α}
    (h : w.path.sequence.claimed = []) (params : Sample.Params α) (constrained : Bool) :
    Sample.walk p { params with constrained } w = Sample.walk p params w := by
  simp only [Sample.walk, Constraint.constrain_eq_unrelaxed (Or.inr h)]

/-! ## Runs -/

section

variable {p : Position α} (hphase : p.units.phase = .build)

include hphase

theorem Greedy.takeSteps_of_build (c c' : Constraint) (n : Nat) :
    takeSteps (Greedy.step p c) n Path.start = takeSteps (Greedy.step p c') n Path.start :=
  takeSteps_congr fun _ _ _ hpath =>
    step_of_unclaimed ((Path.Held.greedy hpath).claimed_eq_nil hphase) c c'

theorem Beam.takeSteps_of_build (c c' : Constraint) (width n : Nat) :
    takeSteps (Beam.step p c width) n [Path.start] =
      takeSteps (Beam.step p c' width) n [Path.start] :=
  takeSteps_congr fun _ _ _ hpaths => step_of_unclaimed
    (fun _ hpath => (Path.Held.beam hpaths hpath).claimed_eq_nil hphase) c c' width

theorem Sample.takeSteps_of_build (params : Sample.Params α) (constrained : Bool) (n : Nat) :
    takeSteps (Sample.lockstep p params) n (Sample.start params) =
      takeSteps (Sample.lockstep p { params with constrained }) n (Sample.start params) :=
  takeSteps_congr fun _ _ _ hwalkers => Workers.forkJoin_congr fun _ hw =>
    (walk_of_unclaimed ((Path.Held.sample hwalkers hw).claimed_eq_nil hphase)
      params constrained).symm

theorem Greedy.decode_of_build (temperature : α) (constrained : Bool) :
    Greedy.decode p temperature constrained = Greedy.decode p temperature false := by
  unfold Greedy.decode Position.takeAll
  rw [Greedy.takeSteps_of_build hphase { vocab := p.vocab, enabled := constrained }]

theorem Beam.search_of_build (width : Nat) (constrained : Bool) :
    Beam.search p width constrained = Beam.search p width false := by
  unfold Beam.search Position.takeAll
  simp only [Beam.takeSteps_of_build hphase { vocab := p.vocab, enabled := constrained }
    { vocab := p.vocab, enabled := false }]

theorem Sample.run_of_build (params : Sample.Params α) (constrained : Bool) :
    Sample.run p { params with constrained } = Sample.run p params := by
  have hwalkers := Sample.takeSteps_of_build hphase params constrained p.numSteps
  unfold Sample.lockstep at hwalkers
  unfold Sample.run Position.takeAll
  rw [hwalkers]
  rfl

theorem Pool.generate_of_build (params : Pool.Params α) (constrained : Bool) :
    Pool.generate p { params with constrained } =
      Pool.generate p { params with constrained := false } := by
  have htopUp (missing : Nat) : Pool.topUp p { params with constrained } missing =
      Pool.topUp p { params with constrained := false } missing := by
    have hrun : Sample.run p (Params.samples { params with constrained } missing) =
        Sample.run p (Params.samples { params with constrained := false } missing) :=
      Sample.run_of_build hphase (Params.samples { params with constrained := false } missing)
        constrained
    unfold Pool.topUp
    dsimp only
    rw [hrun]
    rfl
  unfold Pool.generate
  simp only [Beam.search_of_build hphase _ constrained, htopUp]

end

/-- In the build phase it makes no difference to any strategy whether the
constraint is on, neither to what it finds nor to how it fails: there is
never a claim, and no row is ever relaxed. -/
theorem build_phase_is_unconstrained {p : Position α} (hphase : p.units.phase = .build) :
    (∀ temperature, Greedy.decode p temperature true = Greedy.decode p temperature false) ∧
    (∀ width, Beam.search p width true = Beam.search p width false) ∧
    (∀ params : Sample.Params α, Sample.run p { params with constrained := true } =
      Sample.run p { params with constrained := false }) ∧
    (∀ params : Pool.Params α, Pool.generate p { params with constrained := true } =
      Pool.generate p { params with constrained := false }) ∧
    (∀ n (path : Path α), path.Held p n → path.sequence.claimed = [] ∧
      ∀ (c : Constraint) (row : List α), (c.constrain path.sequence row).row = row ∧
        (c.constrain path.sequence row).relaxed = false) := by
  refine ⟨fun temperature => Greedy.decode_of_build hphase temperature true,
    fun width => Beam.search_of_build hphase width true,
    fun params => Sample.run_of_build hphase { params with constrained := false } true,
    fun params => Pool.generate_of_build hphase params true, fun n path hpath => ?_⟩
  have hnone := hpath.claimed_eq_nil hphase
  refine ⟨hnone, fun c row => ?_⟩
  rw [Constraint.constrain_eq_unrelaxed (Or.inr hnone)]
  exact ⟨rfl, rfl⟩

/-- The areas of `contested`, now to build in. -/
def rebuilding : Position Stark :=
  { contested with units := contested.units.withPhase .build }

def rebuildingParams (constrained : Bool) : Pool.Params Stark :=
  { numCandidates := 2, beamWidth := 1, temperature := 1, topK := 0, constrained
    oversample := 1, seed := 1 }

/-- Where two units may not both go, two may well be built, constraint or
not. -/
theorem rebuilding_is_unconstrained :
    (rebuilding.units.phase = .build ∧
      Greedy.decode rebuilding 1 true =
        .ok ⟨[⟨10, .build 1⟩, ⟨10, .build 1⟩], (0 : Float), .greedy⟩) ∧
    Greedy.decode rebuilding 1 false =
      .ok ⟨[⟨10, .build 1⟩, ⟨10, .build 1⟩], (0 : Float), .greedy⟩ ∧
    Beam.search rebuilding 3 true = Beam.search rebuilding 3 false ∧
    Sample.run rebuilding { contestedSamples with constrained := true } =
      Sample.run rebuilding { contestedSamples with constrained := false } ∧
    Pool.generate rebuilding (rebuildingParams true) =
      Pool.generate rebuilding (rebuildingParams false) ∧
    ∃ path : Path Stark, path.Held rebuilding 2 ∧
      path.sequence.choices = [⟨10, .build 1⟩, ⟨10, .build 1⟩] ∧ path.sequence.claimed = [] := by
  have hphase : rebuilding.units.phase = .build := rfl
  have hdecode : Greedy.decode rebuilding 1 true =
      .ok ⟨[⟨10, .build 1⟩, ⟨10, .build 1⟩], (0 : Float), .greedy⟩ := by
    decide +kernel
  obtain ⟨hgreedy, hbeam, hsample, hgenerate, hheld⟩ := build_phase_is_unconstrained hphase
  obtain ⟨-, path, hpath, hcandidate⟩ := Greedy.decode_eq_ok_iff.mp hdecode
  have hpath := Path.Held.greedy hpath
  exact ⟨⟨hphase, hdecode⟩, (hgreedy 1).symm.trans hdecode, hbeam 3, hsample _,
    hgenerate (rebuildingParams true), path, hpath,
    (congrArg Candidate.choices hcandidate).symm, (hheld 2 path hpath).1⟩

end OrderDecoding
