/-
# `Proofs.Faults` — what can go wrong after the settings have passed

Settings that passed their check leave a caller one way to be wrong: the
units.  There may be too many of them, or one that is not on the map.  That
is found out first, and it does not depend on the scorer.

Everything else is the scorer's: it has no row, or no valid one, or none
with something to choose (`DecodeError.OfScorer`).  The other refusals of
the library are out of reach from here.  No entry is chosen that the
vocabulary does not have, no row is asked for past the last unit, and what a
pool rescores are its own candidates.  Each strategy is shown to be so step
by step (`FailsOnly`), on what its steps keep to.

A beam search may also come to a step at which all sums overflow; then it
breaks off, and that is said exactly (`search_eq_outOfPaths_iff`).
-/
import OrderDecoding.Decoder
import OrderDecoding.Proofs.Asking
import OrderDecoding.Proofs.Composition

namespace OrderDecoding

open Score LawfulScore

/-- The failures that a scorer answers for. -/
inductive DecodeError.OfScorer : DecodeError → Prop
  | scorer (cause : ScorerError) : OfScorer (.scorer cause)
  | scores (step : Nat) (cause : RowError) : OfScorer (.scores step cause)
  | degenerate (step : Nat) : OfScorer (.degenerate step)

/-! ## Failing in certain ways only -/

section FailsOnly

variable {β γ ε σ : Type} {P Q : ε → Prop}

/-- If it fails, then in one of certain ways. -/
def FailsOnly (P : ε → Prop) (x : Except ε β) : Prop := ∀ e, x = .error e → P e

theorem failsOnly_ok (b : β) : FailsOnly P (.ok b) := nofun

theorem failsOnly_error {e : ε} (h : P e) : FailsOnly P (.error e : Except ε β) := by
  intro e' he'
  cases he'
  exact h

theorem failsOnly_of_exists {x : Except ε β} (h : ∃ b, x = .ok b) : FailsOnly P x := by
  obtain ⟨b, rfl⟩ := h
  exact failsOnly_ok b

theorem FailsOnly.imp {x : Except ε β} (h : FailsOnly P x) (hPQ : ∀ e, P e → Q e) :
    FailsOnly Q x := fun e he => hPQ e (h e he)

theorem FailsOnly.bind {x : Except ε β} {f : β → Except ε γ} (hx : FailsOnly P x)
    (hf : ∀ b, x = .ok b → FailsOnly P (f b)) : FailsOnly P (x >>= f) := by
  intro e he
  rcases bind_eq_error_iff.mp he with he | ⟨b, hb, he⟩
  · exact hx e he
  · exact hf b hb e he

theorem failsOnly_mapM {f : β → Except ε γ} {xs : List β} (h : ∀ x ∈ xs, FailsOnly P (f x)) :
    FailsOnly P (xs.mapM f) := by
  intro e he
  obtain ⟨i, x, hx, hfail, -⟩ := mapM_eq_error_iff.mp he
  exact h x (List.mem_of_getElem? hx) e hfail

theorem failsOnly_forkJoin {w : Workers} {f : β → Except ε γ} {xs : List β}
    (h : ∀ x ∈ xs, FailsOnly P (f x)) : FailsOnly P (w.forkJoin xs f) := by
  intro e he
  obtain ⟨x, hx, hfail⟩ := Workers.exists_of_forkJoin_eq_error he
  exact h x hx e hfail

/-- Steps are followed as far as they are taken. -/
theorem failsOnly_takeSteps {step : σ → Except ε σ} {n : Nat} {s : σ}
    (h : ∀ k s', k < n → takeSteps step k s = .ok s' → FailsOnly P (step s')) :
    FailsOnly P (takeSteps step n s) := by
  intro e he
  obtain ⟨k, hk, s', hs', hfail⟩ := takeSteps_eq_error_iff.mp he
  exact h k s' hk hs' e hfail

end FailsOnly

variable {α : Type} [Score α]

/-! ## Rows and choices -/

/-- Before the last unit it is the scorer alone that can fail to give a
row. -/
theorem Position.failsOnly_scores {p : Position α} {s : Sequence} (hlt : s.length < p.numSteps) :
    FailsOnly DecodeError.OfScorer (p.scores s) := by
  intro e he
  cases (rowAt_eq_error_iff hlt).mp he with
  | scorer _ => exact .scorer _
  | row _ _ => exact .scores _ _

/-- An entry of a row, masked or not, is an entry of the vocabulary. -/
theorem Position.exists_choose_constrained {p : Position α} {c : Constraint} {s : Sequence}
    {raw : List α} (hlt : s.length < p.numSteps) (hraw : p.scores s = .ok raw) {index : Nat}
    {x : α} (hx : (c.constrain s raw).row[index]? = some x) :
    ∃ choice, p.choose s.length index = .ok choice := by
  refine Position.exists_choose hlt ?_
  rw [← Position.length_of_scores hraw]
  exact (Constraint.getElem?_constrain hx).2

/-! ## Strategies -/

theorem Greedy.failsOnly_step {p : Position α} {c : Constraint} {path : Path α}
    (hlt : path.sequence.length < p.numSteps) :
    FailsOnly DecodeError.OfScorer (Greedy.step p c path) := by
  refine (Position.failsOnly_scores hlt).bind fun raw hraw => ?_
  split
  · exact failsOnly_error (.degenerate _)
  · next index hargmax =>
    obtain ⟨x, hx, -⟩ := Row.argmax_eq_some hargmax
    exact FailsOnly.bind (failsOnly_of_exists (Position.exists_choose_constrained hlt hraw hx))
      fun choice _ => failsOnly_ok _

theorem Greedy.failsOnly_decode {p : Position α} {temperature : α}
    (htemperature : checkTemperature temperature = .ok ()) (constrained : Bool) :
    FailsOnly DecodeError.OfScorer (Greedy.decode p temperature constrained) := by
  refine (failsOnly_of_exists ⟨(), htemperature⟩).bind fun _ _ => FailsOnly.bind ?_ fun path _ =>
    failsOnly_ok _
  refine failsOnly_takeSteps fun k path hk hpath => Greedy.failsOnly_step ?_
  exact (Greedy.replayed_takeSteps hpath).length ▸ hk

theorem Beam.failsOnly_row {p : Position α} {c : Constraint} {path : Path α}
    (hlt : path.sequence.length < p.numSteps) :
    FailsOnly DecodeError.OfScorer (Beam.row p c path) := by
  refine (Position.failsOnly_scores hlt).bind fun raw _ => ?_
  dsimp only
  split
  · exact failsOnly_ok _
  · exact failsOnly_error (.degenerate _)

theorem Beam.failsOnly_step {p : Position α} {c : Constraint} {width steps : Nat}
    (hlt : steps < p.numSteps) {paths : List (Path α)} (h : ∀ path ∈ paths, Kept p c steps path) :
    FailsOnly DecodeError.OfScorer (Beam.step p c width paths) := by
  refine (failsOnly_forkJoin fun path hpath => ?_).bind fun rows hrows => ?_
  · exact Beam.failsOnly_row ((h path hpath).length ▸ hlt)
  · exact failsOnly_of_exists
      (exists_followed hlt h (Workers.forkJoin_eq_ok_iff.mp hrows) width)

variable [LawfulScore α]

theorem Sample.failsOnly_walk {p : Position α} {params : Sample.Params α} {w : Sample.Walker α}
    (htemperature : checkTemperature params.temperature = .ok ())
    (hlt : w.path.sequence.length < p.numSteps) :
    FailsOnly DecodeError.OfScorer (Sample.walk p params w) := by
  refine (Position.failsOnly_scores hlt).bind fun raw hraw => ?_
  dsimp only
  split
  · split
    · exact failsOnly_error (.degenerate _)
    · next index source hdraw =>
      obtain ⟨x, hx, -⟩ := Row.draw_eq_some (lt_posInf_of_checkTemperature htemperature) hdraw
      exact FailsOnly.bind
        (failsOnly_of_exists (Position.exists_choose_constrained hlt hraw hx))
        fun choice _ => failsOnly_ok _
  · exact failsOnly_error (.degenerate _)

theorem Sample.failsOnly_run {p : Position α} {params : Sample.Params α}
    (hsome : 0 < params.numSamples)
    (htemperature : checkTemperature params.temperature = .ok ()) :
    FailsOnly DecodeError.OfScorer (Sample.run p params) := by
  rw [Sample.run, if_neg hsome.ne']
  refine (failsOnly_of_exists ⟨(), htemperature⟩).bind fun _ _ => FailsOnly.bind ?_ fun _ _ =>
    failsOnly_ok _
  refine failsOnly_takeSteps fun k walkers hk hwalkers => failsOnly_forkJoin fun w hw => ?_
  exact Sample.failsOnly_walk htemperature (Sample.length_takeSteps hwalkers w hw ▸ hk)

namespace Beam

variable {p : Position α} {c : Constraint} {width : Nat}

theorem failsOnly_takeSteps (p : Position α) (c : Constraint) (width : Nat) :
    FailsOnly DecodeError.OfScorer (takeSteps (Beam.step p c width) p.numSteps [Path.start]) :=
  OrderDecoding.failsOnly_takeSteps fun _ _ hk hpaths =>
    Beam.failsOnly_step hk (kept_takeSteps hpaths)

theorem failsOnly_search (hwidth : 1 ≤ width) (hsize : width ≤ p.vocab.size)
    (constrained : Bool) :
    FailsOnly (fun e => e.OfScorer ∨ e = .outOfPaths) (Beam.search p width constrained) := by
  rw [Beam.search, if_neg (by omega)]
  split
  · exact failsOnly_ok _
  · refine ((failsOnly_takeSteps p _ width).imp fun _ => Or.inl).bind fun paths _ => ?_
    cases paths with
    | nil => exact failsOnly_error (Or.inr rfl)
    | cons best rest => exact failsOnly_ok _

/-! ## Breaking off -/

/-- A step that overflows does not fail, it comes to nothing. -/
theorem step_eq_nil_of_overflowed {steps : Nat} {paths : List (Path α)}
    (h : ∀ path ∈ paths, Kept p c steps path) (hover : Overflowed p c paths) :
    Beam.step p c width paths = .ok [] := by
  have hrow : ∀ path ∈ paths, ∃ row, Beam.row p c path = .ok row := by
    intro path hpath
    obtain ⟨-, row, hrow, -⟩ := hover.2 path hpath
    exact ⟨row, hrow⟩
  obtain ⟨rows, hrows⟩ := exists_mapM hrow
  refine step_eq_ok_iff.mpr ⟨rows, hrows, ?_⟩
  have hnone : survivors width ((paths.zip rows).flatMap fun pr => extensions pr.1 pr.2) = [] := by
    refine List.eq_nil_iff_forall_not_mem.mpr fun e he => ?_
    obtain ⟨hmem, hopen⟩ := mem_of_mem_survivors he
    exact hopen ((masked_iff_overflowed h hrows).mpr (Or.inr hover) e hmem)
  rw [hnone]
  rfl

/-- After a step that overflows there is nothing any more. -/
theorem takeSteps_eq_nil_of_overflowsAt {i n : Nat} (hi : i < n)
    (hover : OverflowsAt p c width i) :
    takeSteps (Beam.step p c width) n [Path.start] = .ok [] := by
  induction n with
  | zero => cases hi
  | succ n ih =>
    rw [takeSteps_succ]
    refine bind_eq_ok_iff.mpr ?_
    rcases Nat.lt_or_eq_of_le (Nat.le_of_lt_succ hi) with hlt | rfl
    · exact ⟨[], ih hlt, step_eq_ok_iff.mpr ⟨[], rfl, rfl⟩⟩
    · obtain ⟨paths, hpaths, hover⟩ := hover
      exact ⟨paths, hpaths, step_eq_nil_of_overflowed (kept_takeSteps hpaths) hover⟩

/-- One of the steps overflows. -/
def BreaksOff (constrained : Bool) (width : Nat) (p : Position α) : Prop :=
  ∃ i < p.numSteps, OverflowsAt p (p.constraint constrained) width i

/-- Where nothing is masked none does. -/
theorem not_breaksOff_of_open {constrained : Bool}
    (hopen : constrained = false ∨ p.units.phase = .build) : ¬ BreaksOff constrained width p := by
  rintro ⟨i, -, hover⟩
  exact not_overflowsAt_of_open hopen hover

/-- Whatever the scorer, a search breaks off exactly if one of its steps
overflows. -/
theorem search_eq_outOfPaths_iff (hwidth : 1 ≤ width) (hsize : width ≤ p.vocab.size)
    {constrained : Bool} :
    Beam.search p width constrained = .error .outOfPaths ↔ BreaksOff constrained width p := by
  rcases Nat.eq_zero_or_pos p.numSteps with hnone | hunits
  · obtain ⟨found, hfound, -⟩ := search_of_no_units hnone hwidth hsize constrained
    rw [hfound]
    exact ⟨nofun, fun ⟨i, hi, _⟩ => absurd (hnone ▸ hi) (Nat.not_lt_zero i)⟩
  constructor
  · intro h
    rw [Beam.search, if_neg (by omega), if_neg hunits.ne'] at h
    rcases bind_eq_error_iff.mp h with h | ⟨paths, hpaths, h⟩
    · cases failsOnly_takeSteps p _ width _ h
    · cases paths with
      | nil => exact (eq_nil_iff_overflowsAt hwidth hpaths).mp rfl
      | cons best rest => cases h
  · rintro ⟨i, hi, hover⟩
    rw [search_of_takeSteps hunits hwidth hsize (takeSteps_eq_nil_of_overflowsAt hi hover)]

end Beam

/-! ## Pools -/

theorem Pool.failsOnly_topUp {p : Position α} {params : Pool.Params α} {missing : Nat}
    (htemperature : checkTemperature params.temperature = .ok ()) :
    FailsOnly DecodeError.OfScorer (Pool.topUp p params missing) := by
  rw [Pool.topUp]
  split
  · exact failsOnly_ok []
  · next hsome => exact Sample.failsOnly_run (Nat.pos_of_ne_zero hsome) htemperature

/-- A pool fails as its search and its samples do, and in no other way. -/
theorem Pool.generate_eq_error_iff {p : Position α} {params : Pool.Params α}
    (hsome : 0 < params.numCandidates) {e : DecodeError} :
    Pool.generate p params = .error e ↔
      Beam.search p (min params.beamWidth params.numCandidates) params.constrained = .error e ∨
      ∃ found, Beam.search p (min params.beamWidth params.numCandidates) params.constrained
        = .ok found ∧
        Pool.topUp p params (params.numCandidates - found.candidates.length) = .error e := by
  rw [Pool.generate, if_neg hsome.ne']
  refine bind_eq_error_iff.trans (or_congr_right (exists_congr fun found =>
    and_congr_right fun hfound => bind_eq_error_iff.trans (or_iff_left ?_)))
  rintro ⟨sampled, hsampled, hbuild⟩
  obtain ⟨pool, hpool⟩ := Pool.exists_build hfound hsampled params.numCandidates
  rw [hpool] at hbuild
  cases hbuild

theorem Pool.failsOnly_generate {p : Position α} {params : Pool.Params α}
    (hsome : 0 < params.numCandidates) (hwidth : 1 ≤ params.beamWidth)
    (hsize : params.beamWidth ≤ p.vocab.size)
    (htemperature : checkTemperature params.temperature = .ok ()) :
    FailsOnly (fun e => e.OfScorer ∨ e = .outOfPaths) (Pool.generate p params) := by
  intro e he
  rcases (Pool.generate_eq_error_iff hsome).mp he with he | ⟨found, -, he⟩
  · exact Beam.failsOnly_search (Nat.le_min.mpr ⟨hwidth, hsome⟩)
      (Nat.le_trans (Nat.min_le_left _ _) hsize) _ e he
  · exact Or.inl (Pool.failsOnly_topUp htemperature e he)

theorem Pool.generate_eq_outOfPaths_iff {p : Position α} {params : Pool.Params α}
    (hsome : 0 < params.numCandidates) (hwidth : 1 ≤ params.beamWidth)
    (hsize : params.beamWidth ≤ p.vocab.size)
    (htemperature : checkTemperature params.temperature = .ok ()) :
    Pool.generate p params = .error .outOfPaths ↔
      Beam.BreaksOff params.constrained (min params.beamWidth params.numCandidates) p := by
  refine (Pool.generate_eq_error_iff hsome).trans ((or_iff_left ?_).trans
    (Beam.search_eq_outOfPaths_iff (Nat.le_min.mpr ⟨hwidth, hsome⟩)
      (Nat.le_trans (Nat.min_le_left _ _) hsize)))
  rintro ⟨found, -, hout⟩
  cases Pool.failsOnly_topUp htemperature _ hout

/-! ## Settings -/

/-- What settings have passed. -/
structure Settings.Passed (s : Settings α) : Prop where
  areas : 0 < s.numAreas
  width : 1 ≤ s.beamWidth
  width_le : s.beamWidth ≤ s.vocab.size
  samples : 0 < s.numSamples
  candidates : 0 < s.numCandidates
  temperature : checkTemperature s.temperature = .ok ()

/-- The size of the vocabulary fits a word. -/
def Settings.Fits (s : Settings α) : Prop := s.vocab.size < Word.bound

instance (s : Settings α) : Decidable s.Fits := inferInstanceAs (Decidable (_ < _))

omit [LawfulScore α] in
theorem Settings.passed_of_check {s : Settings α} (h : s.check = .ok ()) : s.Passed := by
  have hsize : s.wordSize ≤ s.vocab.size := Nat.mod_le _ _
  unfold Settings.check at h
  split at h
  · cases h
  · split at h
    · cases h
    · split at h
      · cases h
      · split at h
        · cases h
        · exact ⟨by omega, by omega, by omega, by omega, by omega, h⟩

omit [LawfulScore α] in
/-- On a map of any size that is met the check asks for nothing else. -/
theorem Settings.check_eq_ok_iff {s : Settings α} (hfits : s.Fits) :
    s.check = .ok () ↔ s.Passed := by
  refine ⟨Settings.passed_of_check, fun ⟨hareas, hwidth, hle, hsamples, hcandidates, h⟩ => ?_⟩
  have hsize : s.wordSize = s.vocab.size := Nat.mod_eq_of_lt hfits
  rw [Settings.check, if_neg hareas.ne', hsize, if_neg (by omega), if_neg hsamples.ne',
    if_neg hcandidates.ne', h]

/-- Units that are refused under some settings: too many of them, or one
that is not on the map. -/
def Settings.Refuses (s : Settings α) (units : UnitList) : Prop :=
  s.maxUnits < units.length ∨ ∃ area ∈ units.areas, s.numAreas ≤ area

namespace Decoder

omit [LawfulScore α] in
/-- Settings that pass their check make a decoder once its workers are there. -/
theorem exists_create {settings : Settings α} {start : Nat → Except String Schedule}
    {w : Workers} (h : settings.check = .ok ())
    (hworkers : Workers.hire start settings.threads = .ok w) (scorer : Scorer α)
    (fresh : UInt64) : ∃ d, create scorer settings fresh start = .ok d ∧ d.scorer = scorer ∧
      d.settings = settings ∧ d.workers = w := by
  unfold create
  split
  · next e herror =>
    rw [h] at herror
    cases herror
  · rw [hworkers]
    exact ⟨_, rfl, rfl, rfl, rfl⟩

omit [LawfulScore α] in
/-- Units are refused by the caller's fault, or bound as they are. -/
theorem position_cases (d : Decoder α) (units : UnitList) :
    (d.settings.Refuses units ∧ ∃ cause, d.position units = .error (.argument cause)) ∨
      ¬ d.settings.Refuses units ∧ ∃ p, d.position units = .ok p ∧ p.units = units ∧
        p.vocab = d.settings.vocab := by
  unfold position
  split
  · next hmany => exact Or.inl ⟨Or.inl hmany, _, rfl⟩
  · next hfew =>
    unfold Position.ofUnits
    split
    · next area hfind =>
      have houtside := List.find?_some hfind
      exact Or.inl ⟨Or.inr ⟨area, List.mem_of_find?_eq_some hfind,
        of_decide_eq_true houtside⟩, _, rfl⟩
    · next hnone =>
      refine Or.inr ⟨?_, _, rfl, rfl, rfl⟩
      rintro (hmany | ⟨area, harea, houtside⟩)
      · exact hfew hmany
      · exact List.find?_eq_none.mp hnone area harea (decide_eq_true houtside)

omit [LawfulScore α] in
theorem units_of_position {d : Decoder α} {units : UnitList} {p : Position α}
    (h : d.position units = .ok p) : p.units = units := by
  rcases d.position_cases units with ⟨-, cause, hrefused⟩ | ⟨-, p', hbound, hunits, -⟩
  · rw [h] at hrefused
    cases hrefused
  · obtain rfl : p = p' := Except.ok.inj (h.symm.trans hbound)
    exact hunits

end Decoder

/-- The ways in which a decoder's answer for some units can fail: the caller
is refused exactly for the units, the run breaks off, which is no answer at
all, exactly where `breaksOff` says so, and anything else is the scorer's.
So it is never an entry that cannot be read, nor settings that cannot. -/
structure Decoder.Faults (d : Decoder α) (units : UnitList) (breaksOff : Position α → Prop)
    {β : Type} (r : Except DecodeError β) : Prop where
  argument : (∃ cause, r = .error (.argument cause)) ↔ d.settings.Refuses units
  outOfPaths : r = .error .outOfPaths ↔ ∃ p, d.position units = .ok p ∧ breaksOff p
  other : ∀ e, r = .error e → (∃ cause, e = .argument cause) ∨ e = .outOfPaths ∨ e.OfScorer

namespace Decoder

variable {β : Type}

omit [LawfulScore α] in
/-- What fails only as a scorer does, or breaks off, makes an answer with
these faults once the units are bound. -/
theorem faults_of_bind {d : Decoder α} {units : UnitList} {breaksOff : Position α → Prop}
    {f : Position α → Except DecodeError β}
    (hfails : ∀ p, p.vocab = d.settings.vocab →
      FailsOnly (fun e => e.OfScorer ∨ e = .outOfPaths) (f p))
    (hbreaks : ∀ p, p.vocab = d.settings.vocab → (f p = .error .outOfPaths ↔ breaksOff p)) :
    d.Faults units breaksOff (d.position units >>= f) := by
  rcases d.position_cases units with
    ⟨hrefused, cause, hposition⟩ | ⟨hbound, p, hposition, -, hvocab⟩
  · have hresult : (d.position units >>= f) = .error (.argument cause) := by rw [hposition]; rfl
    rw [hresult]
    constructor
    case argument => exact ⟨fun _ => hrefused, fun _ => ⟨cause, rfl⟩⟩
    case outOfPaths =>
      refine ⟨nofun, fun ⟨p, hp, _⟩ => ?_⟩
      rw [hposition] at hp
      cases hp
    case other =>
      intro e he
      cases he
      exact Or.inl ⟨cause, rfl⟩
  · have hresult : (d.position units >>= f) = f p := by rw [hposition]; rfl
    rw [hresult]
    have hother := hfails p hvocab
    constructor
    case argument =>
      refine ⟨fun ⟨cause, he⟩ => ?_, fun hrefused => absurd hrefused hbound⟩
      rcases hother _ he with hscorer | hout
      · cases hscorer
      · cases hout
    case outOfPaths =>
      rw [hbreaks p hvocab]
      refine ⟨fun h => ⟨p, hposition, h⟩, fun ⟨p', hp', h⟩ => ?_⟩
      obtain rfl : p = p' := Except.ok.inj (hposition.symm.trans hp')
      exact h
    case other => exact fun e he => Or.inr (hother e he).symm

omit [LawfulScore α] in
theorem faults_of_scorer {d : Decoder α} {units : UnitList} {f : Position α → Except DecodeError β}
    (h : ∀ p, p.vocab = d.settings.vocab → FailsOnly DecodeError.OfScorer (f p)) :
    d.Faults units (fun _ => False) (d.position units >>= f) := by
  refine faults_of_bind (fun p hvocab => (h p hvocab).imp fun _ => Or.inl) fun p hvocab => ?_
  refine ⟨fun hout => ?_, False.elim⟩
  cases h p hvocab _ hout

/-- Settings that pass their check make a decoder, if its workers can be
started, and a decoder refuses its caller only for the units, the same ones
whichever way it decodes and whatever its scorer does.  All other failures are the scorer's, except that
a beam search breaks off, be it for its own sake or for a pool, where one of
its steps overflows; and that does not happen where nothing is masked. -/
theorem only_units_are_refused :
    (∀ (scorer : Scorer α) (settings : Settings α) (fresh : UInt64)
        (start : Nat → Except String Schedule) (w : Workers),
      settings.check = .ok () → Workers.hire start settings.threads = .ok w →
        ∃ d, create scorer settings fresh start = .ok d ∧
          d.scorer = scorer ∧ d.settings = settings ∧ d.workers = w) ∧
    ∀ (d : Decoder α) (units : UnitList),
      d.Faults units (fun _ => False) (d.greedy units) ∧
      d.Faults units (Beam.BreaksOff d.settings.constrained d.settings.beamWidth)
        (d.beam units) ∧
      d.Faults units (fun _ => False) (d.sample units).1 ∧
      d.Faults units (Beam.BreaksOff d.settings.constrained
        (min d.settings.beamWidth d.settings.numCandidates)) (d.candidates units).1 ∧
      (d.settings.constrained = false ∨ units.phase = .build →
        d.beam units ≠ .error .outOfPaths ∧ (d.candidates units).1 ≠ .error .outOfPaths) := by
  refine ⟨fun scorer _ fresh _ _ h hworkers => exists_create h hworkers scorer fresh,
    fun d units => ?_⟩
  obtain ⟨-, hwidth, hsize, hsamples, hcandidates, htemperature⟩ := Settings.passed_of_check d.checked
  have hbeam : d.Faults units (Beam.BreaksOff d.settings.constrained d.settings.beamWidth)
      (d.beam units) :=
    faults_of_bind (fun p hvocab => Beam.failsOnly_search hwidth (hvocab ▸ hsize) _)
      fun p hvocab => Beam.search_eq_outOfPaths_iff hwidth (hvocab ▸ hsize)
  have hpool : d.Faults units (Beam.BreaksOff d.settings.constrained
      (min d.settings.beamWidth d.settings.numCandidates)) (d.candidates units).1 :=
    faults_of_bind
      (fun p hvocab => Pool.failsOnly_generate hcandidates hwidth (hvocab ▸ hsize) htemperature)
      fun p hvocab =>
        Pool.generate_eq_outOfPaths_iff hcandidates hwidth (hvocab ▸ hsize) htemperature
  refine ⟨faults_of_scorer fun p _ => Greedy.failsOnly_decode htemperature _, hbeam,
    faults_of_scorer fun p _ => Sample.failsOnly_run hsamples htemperature, hpool,
    fun hopen => ⟨fun hout => ?_, fun hout => ?_⟩⟩
  · obtain ⟨p, hp, hbreaks⟩ := hbeam.outOfPaths.mp hout
    exact Beam.not_breaksOff_of_open ((units_of_position hp).symm ▸ hopen) hbreaks
  · obtain ⟨p, hp, hbreaks⟩ := hpool.outOfPaths.mp hout
    exact Beam.not_breaksOff_of_open ((units_of_position hp).symm ▸ hopen) hbreaks

end Decoder

/-- A map of three areas, and two units at most. -/
def smallMap : Settings Stark := { Settings.default with numAreas := 3, maxUnits := 2 }

/-- A decoder whose scorer never has a row. -/
def offline : Decoder Stark where
  scorer := fun _ _ => .error (.unavailable "offline")
  settings := smallMap
  source := Generator.ofSeed 7
  workers := .one
  checked := by decide +kernel

def nearUnits : UnitList := { areas := [0, 1], ascending := by decide }

def farUnits : UnitList := { areas := [0, 3], ascending := by decide }

/-- The unit off the map is the caller's fault in every way of decoding;
otherwise it is the scorer that is to blame. -/
theorem offline_faults :
    (smallMap.check = .ok () ∧
      ∃ d, Decoder.create offline.scorer smallMap 7 (fun _ => .error "no threads") = .ok d) ∧
    ((∃ cause, offline.greedy farUnits = .error (.argument cause)) ∧
      (∃ cause, offline.beam farUnits = .error (.argument cause)) ∧
      (∃ cause, (offline.sample farUnits).1 = .error (.argument cause)) ∧
      ∃ cause, (offline.candidates farUnits).1 = .error (.argument cause)) ∧
    (offline.candidates nearUnits).1 = .error (.scorer (.unavailable "offline")) ∧
    ¬ smallMap.Refuses nearUnits := by
  have hcheck : smallMap.check = .ok () := by decide +kernel
  have hscorer : (offline.candidates nearUnits).1 = .error (.scorer (.unavailable "offline")) := by
    decide +kernel
  obtain ⟨hcreate, hfaults⟩ := @Decoder.only_units_are_refused Stark _ _
  obtain ⟨d, hd, -⟩ :=
    hcreate offline.scorer smallMap 7 (fun _ => .error "no threads") .one hcheck rfl
  have hfar : smallMap.Refuses farUnits := Or.inr ⟨3, by decide, Nat.le_refl 3⟩
  obtain ⟨hgreedy, hbeam, hsample, hpool, -⟩ := hfaults offline farUnits
  obtain ⟨-, -, -, hnear, -⟩ := hfaults offline nearUnits
  refine ⟨⟨hcheck, d, hd⟩, ⟨hgreedy.argument.mpr hfar, hbeam.argument.mpr hfar,
    hsample.argument.mpr hfar, hpool.argument.mpr hfar⟩, hscorer, fun hrefused => ?_⟩
  obtain ⟨cause, hargument⟩ := hnear.argument.mpr hrefused
  rw [hscorer] at hargument
  cases hargument

end OrderDecoding
