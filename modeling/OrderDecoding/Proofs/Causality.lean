/-
# `Proofs.Causality` — the present does not know the future

Greedy decoding and sampling commit one choice per unit and never take it
back.  A step sees the units up to its own and what was chosen for those
before, so nothing that comes later can reach it: not the units that are
still to come, not what the scorer would say about them, not how many there
are.  Two runs whose first `j` units and whose answers about these are the
same (`Position.Resembles`) choose the same for the first `j` units, or both
fail at one of them and in the same way.  Which of several samples is the one
to be reported is up to the workers, so of more than one sample the last holds
with the same workers.

A beam search is NOT causal.  What a later row says decides which of the
paths survive, and with them what was chosen first.  The strategies here
never drop a path: a step makes every one of them longer by one choice and
leaves the rest of it as it was (`Stepwise`).  So the run on the first `j`
units is the start of the run on all of them
(`Stepwise.exists_takeSteps_first`), and two runs are compared through it.
-/
import OrderDecoding.Proofs.Agreement

namespace OrderDecoding

variable {α : Type} {p q : Position α} {j : Nat}

/-! ## The first units -/

/-- The first units of a list. -/
def UnitList.first (u : UnitList) (j : Nat) : UnitList :=
  { areas := u.areas.take j, phase := u.phase
    ascending := u.ascending.sublist (List.take_sublist j u.areas) }

/-- The scorer of a position bound to its first units only. -/
def Position.first (p : Position α) (j : Nat) : Position α :=
  { p with
    units := p.units.first j
    inRange := fun area harea => p.inRange area (List.mem_of_mem_take harea) }

/-- The first `j` units are the same, and so are the answers to all that can
be asked without showing more than `j` units. -/
structure Position.Resembles (j : Nat) (p q : Position α) : Prop extends p.SameStart j q where
  scorer : ∀ units prior, units.length ≤ j → p.scorer units prior = q.scorer units prior

theorem Position.Resembles.symm (h : p.Resembles j q) : q.Resembles j p :=
  { h.toSameStart.symm with
    scorer := fun units prior hle => (h.scorer units prior hle).symm }

theorem Position.Resembles.agree (h : p.Resembles j q) : p.Agree j q :=
  { h with
    scorer := fun step hlt prior _ => by
      refine h.scorer _ prior ?_
      rw [UnitList.upTo, List.length_take]
      exact Nat.le_trans (Nat.min_le_left ..) hlt }

/-- Who works on them changes nothing about what two positions answer. -/
theorem Position.Agree.withWorkers [Score α] (h : p.Agree j q) (w : Workers) :
    (p.withWorkers w).Agree j (q.withWorkers w) :=
  { vocab := h.vocab, phase := h.phase, areas := h.areas, scorer := h.scorer }

theorem Position.resembles_first (p : Position α) (j : Nat) : p.Resembles j (p.first j) where
  vocab := rfl
  phase := rfl
  areas := by
    change p.units.areas.take j = (p.units.areas.take j).take j
    rw [List.take_take, Nat.min_self]
  scorer := fun _ _ _ => rfl

theorem Position.numSteps_first (p : Position α) (j : Nat) :
    (p.first j).numSteps = min j p.numSteps := List.length_take

theorem Path.Extends.choices {path path' : Path α} (h : path.Extends p path') :
    ∃ choice, path'.sequence.choices = path.sequence.choices ++ [choice] := by
  obtain ⟨index, choice, score, -, rfl⟩ := h
  exact ⟨choice, rfl⟩

/-- Tables answer alike about the rows that they have in common. -/
theorem Scorer.table_append {rows more more' : List (List α)} {units : List Area}
    (h : Scorer.stepOf units < rows.length) (prior : List Order) :
    Scorer.table (rows ++ more) units prior = Scorer.table (rows ++ more') units prior := by
  rw [Scorer.table, Scorer.table, List.getElem?_append_left h, List.getElem?_append_left h]

variable [Score α]

/-! ## One choice after the other -/

/-- A strategy that chooses for one unit after the other and keeps all that
it has chosen.  `choices` are those of its paths, side by side. -/
structure Stepwise (α σ : Type) [Score α] where
  start : σ
  step : Position α → σ → Except DecodeError σ
  choices : σ → List (List Choice)
  choices_start : ∀ chosen ∈ choices start, chosen = []
  choices_step : ∀ {p s s'}, step p s = .ok s' →
    List.Forall₂ (fun before after => ∃ choice, after = before ++ [choice]) (choices s) (choices s')
  agree : ∀ {p q n}, Position.Agree n p q → ∀ m ≤ n,
    takeSteps (step p) m start = takeSteps (step q) m start

namespace Stepwise

variable {σ : Type} {d : Stepwise α σ} {s t : σ} {n : Nat}

/-- A run appends to what was chosen, and as much as it has steps. -/
theorem choices_takeSteps (h : takeSteps (d.step p) n s = .ok t) :
    List.Forall₂ (fun before after => before <+: after ∧ after.length = before.length + n)
      (d.choices s) (d.choices t) := by
  refine takeSteps_invariant (fun i s' => List.Forall₂
    (fun before after => before <+: after ∧ after.length = before.length + i)
    (d.choices s) (d.choices s')) ?_ (List.forall₂_same.mpr fun _ _ => ⟨List.prefix_rfl, rfl⟩) h
  intro i s₁ s₂ _ hs hstep
  refine (forall₂_trans.mp ⟨_, hs, d.choices_step hstep⟩).imp ?_
  rintro before after ⟨middle, ⟨hkept, hlength⟩, choice, rfl⟩
  refine ⟨hkept.trans (List.prefix_append ..), ?_⟩
  rw [List.length_append, hlength]
  rfl

theorem length_choices (h : takeSteps (d.step p) n d.start = .ok t) :
    ∀ chosen ∈ d.choices t, chosen.length = n := by
  intro chosen hchosen
  obtain ⟨before, hbefore, -, hlength⟩ := exists_of_mem_forall₂ (choices_takeSteps h) hchosen
  rw [hlength, d.choices_start before hbefore, List.length_nil, Nat.zero_add]

/-- A run that got through has passed, after its first steps, by the first
of its choices. -/
theorem exists_takeSteps_first (h : takeSteps (d.step p) n d.start = .ok t) (j : Nat) :
    ∃ u, takeSteps (d.step p) (min j n) d.start = .ok u ∧
      d.choices u = (d.choices t).map (·.take j) := by
  obtain ⟨m, hm⟩ : ∃ m, n = min j n + m := Nat.exists_eq_add_of_le (Nat.min_le_right j n)
  have hparts := h
  rw [hm, takeSteps_add] at hparts
  obtain ⟨u, hu, ht⟩ := bind_eq_ok_iff.mp hparts
  refine ⟨u, hu, ?_⟩
  have hgrown := (List.forall₂_and_left _ _).mpr ⟨length_choices hu, choices_takeSteps ht⟩
  rw [← List.forall₂_eq_eq_eq, List.forall₂_map_right_iff]
  refine hgrown.imp ?_
  rintro before after ⟨hbefore, hkept, hafter⟩
  have hlength : after.length = n := by rw [hafter, hbefore, ← hm]
  rw [List.prefix_iff_eq_take.mp hkept, hbefore, ← hlength, ← List.take_eq_take_min]

/-- Runs that cannot be told apart on `j` units choose the same for them. -/
theorem map_take_eq (h : p.Agree j q) (hp : takeSteps (d.step p) p.numSteps d.start = .ok s)
    (hq : takeSteps (d.step q) q.numSteps d.start = .ok t) :
    (d.choices s).map (·.take j) = (d.choices t).map (·.take j) := by
  obtain ⟨u, hu, hchosen⟩ := exists_takeSteps_first hp j
  obtain ⟨u', hu', hchosen'⟩ := exists_takeSteps_first hq j
  rw [← h.min_numSteps, ← d.agree h _ (Nat.min_le_left ..), hu] at hu'
  obtain rfl : u = u' := Except.ok.inj hu'
  rw [← hchosen, hchosen']

/-- The run on the first units gets through and chooses the same if the run
on all of them gets through. -/
theorem exists_run_first (h : takeSteps (d.step p) p.numSteps d.start = .ok s) (j : Nat) :
    ∃ u, takeSteps (d.step (p.first j)) (p.first j).numSteps d.start = .ok u ∧
      d.choices u = (d.choices s).map (·.take j) := by
  obtain ⟨u, hu, hchosen⟩ := exists_takeSteps_first h j
  refine ⟨u, ?_, hchosen⟩
  rw [p.numSteps_first, ← d.agree (p.resembles_first j).agree _ (Nat.min_le_left ..), hu]

theorem failsAt_iff (h : p.Agree j q) {k : Nat} (hk : k < j) {e : DecodeError} :
    FailsAt (d.step p) k d.start e ↔ FailsAt (d.step q) k d.start e :=
  failsAt_congr (d.agree h) hk

end Stepwise

/-! ## Greedy decoding -/

namespace Greedy

variable {temperature : α} {constrained : Bool}

/-- The step at which greedy decoding fails, and how. -/
inductive Fails (p : Position α) (temperature : α) (constrained : Bool) : Nat → DecodeError → Prop
  | temperature {e : DecodeError} : checkTemperature temperature = .error e →
      Fails p temperature constrained 0 e
  | step {k : Nat} {e : DecodeError} : checkTemperature temperature = .ok () → k < p.numSteps →
      FailsAt (step p (p.constraint constrained)) k Path.start e →
      Fails p temperature constrained k e

theorem decode_eq_error_iff {e : DecodeError} :
    decode p temperature constrained = .error e ↔ ∃ k, Fails p temperature constrained k e := by
  refine checked_eq_error_iff.trans ?_
  constructor
  · rintro (h | ⟨htemperature, k, hk, hfail⟩)
    · exact ⟨0, .temperature h⟩
    · exact ⟨k, .step htemperature hk hfail⟩
  · rintro ⟨k, h | ⟨htemperature, hk, hfail⟩⟩
    · exact Or.inl h
    · exact Or.inr ⟨htemperature, k, hk, hfail⟩

/-- Greedy decoding has a single path. -/
def stepwise (constrained : Bool) : Stepwise α (Path α) where
  start := Path.start
  step := fun p => step p (p.constraint constrained)
  choices := fun path => [path.sequence.choices]
  choices_start := fun _ hchosen => List.mem_singleton.mp hchosen
  choices_step := fun h => .cons (extends_step h).choices .nil
  agree := fun h _ hle => by rw [h.takeSteps_greedy _ hle, h.constraint_eq]

theorem Fails.of_resembles (h : p.Resembles j q) {k : Nat} (hk : k < j) {e : DecodeError}
    (hfails : Fails p temperature constrained k e) : Fails q temperature constrained k e := by
  cases hfails with
  | temperature htemperature => exact .temperature htemperature
  | step htemperature hend hfail =>
    exact .step htemperature ((h.lt_numSteps_iff hk).mp hend)
      (((stepwise constrained).failsAt_iff h.agree hk).mp hfail)

theorem take_choices_eq (h : p.Resembles j q) {c c' : Candidate α}
    (hc : decode p temperature constrained = .ok c)
    (hc' : decode q temperature constrained = .ok c') :
    c.choices.take j = c'.choices.take j := by
  obtain ⟨-, path, hpath, rfl⟩ := decode_eq_ok_iff.mp hc
  obtain ⟨-, path', hpath', rfl⟩ := decode_eq_ok_iff.mp hc'
  exact List.head_eq_of_cons_eq ((stepwise constrained).map_take_eq h.agree hpath hpath')

theorem exists_decode_first {c : Candidate α} (hc : decode p temperature constrained = .ok c)
    (j : Nat) : ∃ c', decode (p.first j) temperature constrained = .ok c' ∧
      c'.choices = c.choices.take j := by
  obtain ⟨htemperature, path, hpath, rfl⟩ := decode_eq_ok_iff.mp hc
  obtain ⟨path', hpath', hchosen⟩ := (stepwise constrained).exists_run_first hpath j
  exact ⟨_, decode_eq_ok_iff.mpr ⟨htemperature, path', hpath', rfl⟩,
    List.head_eq_of_cons_eq hchosen⟩

end Greedy

/-! ## Sampling -/

namespace Sample

variable {params : Params α}

/-- Samples as one worker moves them on; where they all get through, that is
as any workers do. -/
def stepwise (params : Params α) : Stepwise α (List (Walker α)) where
  start := start params
  step := fun p => lockstep (p.withWorkers .one) params
  choices := fun walkers => walkers.map (·.path.sequence.choices)
  choices_start := fun _ hchosen => by
    obtain ⟨w, hw, rfl⟩ := List.mem_map.mp hchosen
    obtain ⟨i, -, rfl⟩ := List.mem_map.mp hw
    rfl
  choices_step := fun h => by
    rw [List.forall₂_map_left_iff, List.forall₂_map_right_iff]
    exact (forall₂_of_mapM h).imp fun _ _ hwalk => (extends_walk hwalk).choices
  agree := fun h _ hle => (h.withWorkers .one).takeSteps_lockstep (Or.inr rfl) hle

theorem takeSteps_stepwise {n : Nat} {walkers : List (Walker α)} :
    takeSteps ((stepwise params).step p) n (stepwise params).start = .ok walkers ↔
      takeSteps (lockstep p params) n (start params) = .ok walkers :=
  calc takeSteps (lockstep (p.withWorkers .one) params) n (start params) = .ok walkers
      ↔ List.Forall₂ (fun w w' => takeSteps (walk p params) n w = .ok w') (start params) walkers :=
        takeSteps_forkJoin_eq_ok_iff
    _ ↔ takeSteps (lockstep p params) n (start params) = .ok walkers :=
        takeSteps_forkJoin_eq_ok_iff.symm

theorem Fails.of_resembles (h : p.Resembles j q)
    (hworkers : params.numSamples = 1 ∨ p.workers = q.workers) {k : Nat} (hk : k < j)
    {e : DecodeError} (hfails : Fails p params k e) : Fails q params k e := by
  cases hfails with
  | temperature htemperature => exact .temperature htemperature
  | walk htemperature hend hfail =>
    exact .walk htemperature ((h.lt_numSteps_iff hk).mp hend)
      ((failsAt_congr (fun _ => h.agree.takeSteps_lockstep hworkers) hk).mp hfail)

theorem take_choices_eq (hsome : 0 < params.numSamples) (h : p.Resembles j q)
    {cs cs' : List (Candidate α)} (hcs : run p params = .ok cs) (hcs' : run q params = .ok cs') :
    cs.map (·.choices.take j) = cs'.map (·.choices.take j) := by
  obtain ⟨-, walkers, hwalkers, rfl⟩ := (run_eq_ok_iff hsome).mp hcs
  obtain ⟨-, walkers', hwalkers', rfl⟩ := (run_eq_ok_iff hsome).mp hcs'
  have hsame := (stepwise params).map_take_eq h.agree (takeSteps_stepwise.mpr hwalkers)
    (takeSteps_stepwise.mpr hwalkers')
  simp only [stepwise, List.map_map] at hsame ⊢
  exact hsame

theorem exists_run_first (hsome : 0 < params.numSamples) {cs : List (Candidate α)}
    (hcs : run p params = .ok cs) (j : Nat) : ∃ cs', run (p.first j) params = .ok cs' ∧
      cs'.map (·.choices) = cs.map (·.choices.take j) := by
  obtain ⟨htemperature, walkers, hwalkers, rfl⟩ := (run_eq_ok_iff hsome).mp hcs
  obtain ⟨walkers', hwalkers', hchosen⟩ :=
    (stepwise params).exists_run_first (takeSteps_stepwise.mpr hwalkers) j
  refine ⟨_, (run_eq_ok_iff hsome).mpr
    ⟨htemperature, walkers', takeSteps_stepwise.mp hwalkers', rfl⟩, ?_⟩
  simp only [stepwise, List.map_map] at hchosen ⊢
  exact hchosen

end Sample

/-! ## Causality -/

/-- Greedy decoding and sampling are causal.  Where the first `j` units and
the answers about them are the same, runs fail at the same of these units
and in the same way, or choose the same for them; and what gets through on a
longer list gets through on its first units, with the first of its
choices. -/
theorem choices_are_causal (p : Position α) (j : Nat) :
    (∀ temperature constrained,
      (∀ e, Greedy.decode p temperature constrained = .error e ↔
        ∃ t, Greedy.Fails p temperature constrained t e) ∧
      (∀ q, p.Resembles j q →
        (∀ t < j, ∀ e, Greedy.Fails p temperature constrained t e ↔
          Greedy.Fails q temperature constrained t e) ∧
        ∀ c c', Greedy.decode p temperature constrained = .ok c →
          Greedy.decode q temperature constrained = .ok c' →
          c.choices.take j = c'.choices.take j) ∧
      ∀ c, Greedy.decode p temperature constrained = .ok c →
        ∃ c', Greedy.decode (p.first j) temperature constrained = .ok c' ∧
          c'.choices = c.choices.take j) ∧
    (∀ params : Sample.Params α, 0 < params.numSamples →
      (∀ e, Sample.run p params = .error e ↔ ∃ t, Sample.Fails p params t e) ∧
      (∀ q, p.Resembles j q →
        (params.numSamples = 1 ∨ p.workers = q.workers →
          ∀ t < j, ∀ e, Sample.Fails p params t e ↔ Sample.Fails q params t e) ∧
        ∀ cs cs', Sample.run p params = .ok cs → Sample.run q params = .ok cs' →
          cs.map (·.choices.take j) = cs'.map (·.choices.take j)) ∧
      ∀ cs, Sample.run p params = .ok cs →
        ∃ cs', Sample.run (p.first j) params = .ok cs' ∧
          cs'.map (·.choices) = cs.map (·.choices.take j)) := by
  refine ⟨fun temperature constrained => ⟨fun e => Greedy.decode_eq_error_iff, fun q h => ?_,
      fun c hc => Greedy.exists_decode_first hc j⟩,
    fun params hsome => ⟨fun e => Sample.run_eq_error_iff hsome, fun q h => ?_,
      fun cs hcs => Sample.exists_run_first hsome hcs j⟩⟩
  · exact ⟨fun t ht e => ⟨.of_resembles h ht, .of_resembles h.symm ht⟩,
      fun c c' hc hc' => Greedy.take_choices_eq h hc hc'⟩
  · exact ⟨fun hworkers t ht e => ⟨.of_resembles h hworkers ht,
        .of_resembles h.symm (hworkers.imp_right Eq.symm) ht⟩,
      fun cs cs' hcs hcs' => Sample.take_choices_eq hsome h hcs hcs'⟩

/-- Three units on a map of four areas, the last of them in area 2 or 3.  The
first goes to area 2. -/
def parting (last : Fin 2) (second third : List Stark) : Position Stark where
  scorer := Scorer.table ([Stark.row 15 [(13, 0)], second] ++ [third])
  units :=
    { areas := [0, 1, 2 + last]
      ascending := by fin_cases last <;> decide }
  vocab := { numAreas := 4 }
  inRange := by fin_cases last <;> decide

theorem parting_resembles (second third third' : List Stark) :
    (parting 0 second third).Resembles 2 (parting 1 second third') := by
  refine ⟨⟨rfl, rfl, rfl⟩, fun units prior hle => Scorer.table_append ?_ prior⟩
  simp only [Scorer.stepOf, List.length_cons, List.length_nil]
  omega

/-- Area 2 is the best that the second unit could do, too; it holds.  The
third moves. -/
def partingLeft : Position Stark :=
  parting 0 (Stark.row 15 [(13, 0), (0, -1)]) (Stark.row 15 [(1, 0)])

/-- The third unit is another, and holds as well. -/
def partingRight : Position Stark :=
  parting 1 (Stark.row 15 [(13, 0), (0, -1)]) (Stark.row 15 [(0, 0)])

def partingSample : Sample.Params Stark :=
  { numSamples := 1, temperature := 1, topK := 0, constrained := true, seed := 7 }

/-- What the third unit is and does changes nothing for the first two.  Where
there is no row for the second, there is none with another unit behind
it. -/
theorem parting_causal :
    partingLeft.Resembles 2 partingRight ∧
    (∃ c c', Greedy.decode partingLeft 1 true = .ok c ∧
      Greedy.decode partingRight 1 true = .ok c' ∧
      (c.signature = [13, 0, 1] ∧ c'.signature = [13, 0, 0]) ∧
      c.choices.take 2 = c'.choices.take 2 ∧
      ∃ c₂, Greedy.decode (partingLeft.first 2) 1 true = .ok c₂ ∧
        c₂.choices = c.choices.take 2) ∧
    (0 < partingSample.numSamples ∧
      ∃ cs cs', Sample.run partingLeft partingSample = .ok cs ∧
        Sample.run partingRight partingSample = .ok cs' ∧
        cs.map (·.choices.take 2) = cs'.map (·.choices.take 2) ∧
        ∃ cs₂, Sample.run (partingLeft.first 2) partingSample = .ok cs₂ ∧
          cs₂.map (·.choices) = cs.map (·.choices.take 2)) ∧
    ∃ t < 2, Greedy.Fails (parting 0 [] []) 1 true t (.scores 1 (.length 15 0)) ∧
      Greedy.Fails (parting 1 [] (Stark.row 15 [(0, 0)])) 1 true t
        (.scores 1 (.length 15 0)) := by
  have hleft : Greedy.decode partingLeft 1 true =
      .ok { choices := [⟨13, .move 0 2⟩, ⟨0, .hold 1⟩, ⟨1, ⟨.move, 2, none⟩⟩], score := (-1 : Float)
            origin := .greedy } := by decide +kernel
  have hright : Greedy.decode partingRight 1 true =
      .ok { choices := [⟨13, .move 0 2⟩, ⟨0, .hold 1⟩, ⟨0, .hold 3⟩], score := (-1 : Float)
            origin := .greedy } := by decide +kernel
  have hleft' : Sample.run partingLeft partingSample =
      .ok [{ choices := [⟨13, .move 0 2⟩, ⟨0, .hold 1⟩, ⟨1, ⟨.move, 2, none⟩⟩]
             score := (0 : Float), origin := .sample }] := by decide +kernel
  have hright' : Sample.run partingRight partingSample =
      .ok [{ choices := [⟨13, .move 0 2⟩, ⟨0, .hold 1⟩, ⟨0, .hold 3⟩]
             score := (0 : Float), origin := .sample }] := by decide +kernel
  have hresembles : partingLeft.Resembles 2 partingRight := parting_resembles ..
  obtain ⟨greedy, sample⟩ := choices_are_causal partingLeft 2
  obtain ⟨-, hgreedy, hgreedyFirst⟩ := greedy 1 true
  obtain ⟨-, hsample, hsampleFirst⟩ := sample partingSample Nat.one_pos
  refine ⟨hresembles, ⟨_, _, hleft, hright, ⟨rfl, rfl⟩,
      (hgreedy _ hresembles).2 _ _ hleft hright, hgreedyFirst _ hleft⟩,
    ⟨Nat.one_pos, _, _, hleft', hright',
      (hsample _ hresembles).2 _ _ hleft' hright', hsampleFirst _ hleft'⟩, ?_⟩
  obtain ⟨greedy, -⟩ := choices_are_causal (parting 0 [] []) 2
  obtain ⟨-, hstuck, -⟩ := greedy 1 true
  -- with two units only, there is no third step to fail at
  have hfirst : Greedy.decode ((parting 0 [] []).first 2) 1 true =
      .error (.scores 1 (.length 15 0)) := by decide +kernel
  obtain ⟨t, hfails⟩ := Greedy.decode_eq_error_iff.mp hfirst
  have ht : t < 2 := by
    cases hfails with
    | temperature h => exact Nat.two_pos
    | step _ hend _ => exact hend
  have hfails₀ := ((hstuck _ (Position.resembles_first ..)).1 t ht _).mpr hfails
  exact ⟨t, ht, hfails₀, ((hstuck _ (parting_resembles ..)).1 t ht _).mp hfails₀⟩

end OrderDecoding
