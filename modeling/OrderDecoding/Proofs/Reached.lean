/-
# `Proofs.Reached` — what every strategy has in common

Each strategy builds its sequences the same way: it asks for the scores of
what is chosen so far, looks at them in its own way (`view`: as they are,
or as log-probabilities), puts the constraint over them, and commits an
entry that is left.  `Reached` is that and nothing else.

A strategy's step is shown here once to reach, from a sequence that is
reached, another one; and to keep its score equal to what a replay of the
choices gives.  What holds of all reached sequences then holds of whatever
any strategy returns.
-/
import OrderDecoding.Proofs.Forking
import OrderDecoding.Proofs.LogSoftmax
import OrderDecoding.Proofs.Picking
import OrderDecoding.Proofs.Replaying
import OrderDecoding.Proofs.Survivors
import OrderDecoding.Strategy.Greedy
import OrderDecoding.Strategy.Sample

namespace OrderDecoding

open Score LawfulScore

variable {α : Type} [Score α]

/-- The sequences that can be built by committing, one after the other,
entries that the constraint leaves in the view of their row. -/
inductive Reached (p : Position α) (c : Constraint) (view : List α → List α) : Sequence → Prop
  | start : Reached p c view {}
  | push {s : Sequence} {raw : List α} {index : Nat} {x : α} {choice : Choice} :
      Reached p c view s →
      p.scores s = .ok raw →
      (c.constrain s (view raw)).row[index]? = some x →
      ¬ x ≤ negInf →
      p.choose s.length index = .ok choice →
      Reached p c view (s.push choice)

namespace Reached

variable {p : Position α} {c : Constraint} {view : List α → List α} {s : Sequence}

theorem eq_ofChoices (h : Reached p c view s) : s = Sequence.ofChoices s.choices := by
  induction h with
  | start => rfl
  | push _ _ _ _ _ ih => rw [Sequence.choices_push, Sequence.ofChoices_concat, ← ih]

/-- What is reached can be replayed. -/
theorem exists_sequenceLogProb (h : Reached p c view s) :
    ∃ score, p.sequenceLogProb s.choices = .ok score := by
  induction h with
  | start => exact ⟨0, rfl⟩
  | push hreached hraw _ _ hchoose ih =>
    obtain ⟨score, hscore⟩ := ih
    rw [hreached.eq_ofChoices] at hraw
    exact ⟨_, Position.sequenceLogProb_concat hscore hraw hchoose⟩

/-- In the build phase nothing is claimed. -/
theorem claimed_eq_nil (h : Reached p c view s) (hphase : p.units.phase = .build) :
    s.claimed = [] := by
  induction h with
  | start => rfl
  | @push s raw index x choice _ _ _ _ hchoose ih =>
    exact (Position.claimed_push hphase hchoose s).trans ih

/-- Rows that no mask is ever put over: the constraint is off, or there is
nothing to claim. -/
theorem constrain_eq_self (h : Reached p c view s)
    (hopen : c.enabled = false ∨ p.units.phase = .build) (row : List α) :
    (c.constrain s row).row = row :=
  Constraint.constrain_eq_self (hopen.imp_right h.claimed_eq_nil)

end Reached

/-- A path that is reached, with `steps` choices, and scored as a replay of
them is. -/
structure Path.Replayed (p : Position α) (c : Constraint) (view : List α → List α) (steps : Nat)
    (path : Path α) : Prop where
  length : path.sequence.length = steps
  reached : Reached p c view path.sequence
  replayed : p.sequenceLogProb path.sequence.choices = .ok path.score

theorem Path.replayed_start (p : Position α) (c : Constraint) (view : List α → List α) :
    (Path.start : Path α).Replayed p c view 0 := ⟨rfl, .start, rfl⟩

/-- One choice more, scored by its log-probability. -/
theorem Path.Replayed.extend {p : Position α} {c : Constraint} {view : List α → List α}
    {steps index : Nat} {path : Path α} {raw : List α} {x : α} {choice : Choice}
    (h : path.Replayed p c view steps) (hraw : p.scores path.sequence = .ok raw)
    (hx : (c.constrain path.sequence (view raw)).row[index]? = some x) (hopen : ¬ x ≤ negInf)
    (hchoose : p.choose path.sequence.length index = .ok choice) :
    (path.extend choice (path.score + Row.logProb raw index)).Replayed p c view (steps + 1) where
  length := by rw [Path.extend, Sequence.length_push, h.length]
  reached := .push h.reached hraw hx hopen hchoose
  replayed := by
    have hreached := h.reached.eq_ofChoices
    exact Position.sequenceLogProb_concat h.replayed (hreached ▸ hraw) hchoose

/-! ## Greedy decoding -/

/-- What a step of greedy decoding does. -/
theorem Greedy.step_eq_ok_iff {p : Position α} {c : Constraint} {path path' : Path α} :
    Greedy.step p c path = .ok path' ↔ ∃ raw index choice, p.scores path.sequence = .ok raw ∧
      Row.argmax (c.constrain path.sequence raw).row = some index ∧
      p.choose path.sequence.length index = .ok choice ∧
      path' = path.extend choice (path.score + Row.logProb raw index) := by
  unfold Greedy.step
  constructor
  · intro h
    obtain ⟨raw, hraw, h⟩ := bind_eq_ok_iff.mp h
    split at h
    · cases h
    · next index hargmax =>
      obtain ⟨choice, hchoose, h⟩ := bind_eq_ok_iff.mp h
      cases h
      exact ⟨raw, index, choice, hraw, hargmax, hchoose, rfl⟩
  · rintro ⟨raw, index, choice, hraw, hargmax, hchoose, rfl⟩
    refine bind_eq_ok_iff.mpr ⟨raw, hraw, ?_⟩
    simp only [hargmax]
    exact bind_eq_ok_iff.mpr ⟨choice, hchoose, rfl⟩

theorem Greedy.replayed_step {p : Position α} {c : Constraint} {steps : Nat} {path path' : Path α}
    (h : path.Replayed p c id steps) (hstep : Greedy.step p c path = .ok path') :
    path'.Replayed p c id (steps + 1) := by
  obtain ⟨raw, index, choice, hraw, hargmax, hchoose, rfl⟩ := Greedy.step_eq_ok_iff.mp hstep
  obtain ⟨x, hx, hopen⟩ := Row.argmax_eq_some hargmax
  exact h.extend hraw hx hopen hchoose

/-- The path after some steps. -/
theorem Greedy.replayed_takeSteps {p : Position α} {c : Constraint} {n : Nat} {path : Path α}
    (h : takeSteps (Greedy.step p c) n Path.start = .ok path) : path.Replayed p c id n :=
  takeSteps_invariant (fun steps (path : Path α) => path.Replayed p c id steps)
    (fun _ _ _ _ hs hstep => Greedy.replayed_step hs hstep) (Path.replayed_start p c id) h

/-- The constraint that a position's units are decoded under. -/
def Position.constraint (p : Position α) (constrained : Bool) : Constraint :=
  { vocab := p.vocab, enabled := constrained }

theorem Greedy.decode_eq_ok_iff {p : Position α} {temperature : α} {constrained : Bool}
    {c : Candidate α} : Greedy.decode p temperature constrained = .ok c ↔
      checkTemperature temperature = .ok () ∧ ∃ path,
        takeSteps (Greedy.step p (p.constraint constrained)) p.numSteps Path.start = .ok path ∧
        c = { choices := path.sequence.choices, score := path.score, origin := .greedy } :=
  checked_eq_ok_iff

theorem Greedy.exists_path {p : Position α} {temperature : α} {constrained : Bool}
    {candidate : Candidate α} (h : Greedy.decode p temperature constrained = .ok candidate) :
    ∃ path : Path α, path.Replayed p (p.constraint constrained) id p.numSteps ∧
      candidate = { choices := path.sequence.choices, score := path.score, origin := .greedy } := by
  obtain ⟨-, path, hpath, rfl⟩ := Greedy.decode_eq_ok_iff.mp h
  exact ⟨path, Greedy.replayed_takeSteps hpath, rfl⟩

/-! ## Steps of a beam search -/

/-- What is left of the log-probabilities is a log-probability. -/
theorem Constraint.logProb_of_constrained {c : Constraint} {s : Sequence} {raw : List α} {i : Nat}
    {y : α} (hy : (c.constrain s (Row.logSoftmax raw)).row[i]? = some y) (hopen : y ≠ negInf) :
    Row.logProb raw i = y := by
  rw [Row.logProb, (getElem?_constrain hy).1.resolve_left hopen, Option.getD_some]

namespace Beam

theorem row_eq_ok_iff {p : Position α} {c : Constraint} {path : Path α} {row : List α} :
    Beam.row p c path = .ok row ↔ ∃ raw, p.scores path.sequence = .ok raw ∧
      row = (c.constrain path.sequence (Row.logSoftmax raw)).row ∧ Row.hasMass row = true := by
  unfold Beam.row
  rw [bind_eq_ok_iff]
  constructor
  · rintro ⟨raw, hraw, h⟩
    simp only at h
    split at h
    · next hmass =>
      cases h
      exact ⟨raw, hraw, rfl, hmass⟩
    · cases h
  · rintro ⟨raw, hraw, rfl, hmass⟩
    exact ⟨raw, hraw, if_pos hmass⟩

/-- The extensions of all paths, each by an entry of its own row. -/
theorem mem_extensions_iff {path : Path α} {row : List α} {e : Extension α} :
    e ∈ extensions path row ↔
      e.parent = path ∧ ∃ x, row[e.index]? = some x ∧ e.score = path.score + x := by
  simp only [extensions, List.mem_map, Prod.exists, List.mem_zipIdx_iff_getElem?]
  constructor
  · rintro ⟨x, i, hx, rfl⟩
    exact ⟨rfl, x, hx, rfl⟩
  · rintro ⟨rfl, x, hx, hscore⟩
    exact ⟨x, e.index, hx, by rw [← hscore]⟩

theorem scores_extensions (path : Path α) (row : List α) :
    (extensions path row).map (·.score) = row.map (path.score + ·) := by
  rw [extensions, List.map_map, ← List.zipIdx_map_fst 0 row, List.map_map, List.zipIdx_map_fst]
  rfl

theorem getElem?_extensions {path : Path α} {row : List α} {x : α} {i : Nat}
    (hx : row[i]? = some x) :
    (extensions path row)[i]? = some { parent := path, index := i, score := path.score + x } := by
  rw [extensions, List.getElem?_map, List.getElem?_zipIdx, hx, Nat.zero_add]
  rfl

/-- A step of a search: the rows of its paths, and the survivors among
their extensions. -/
theorem step_eq_ok_iff {p : Position α} {c : Constraint} {width : Nat}
    {paths paths' : List (Path α)} :
    Beam.step p c width paths = .ok paths' ↔
      ∃ rows, paths.mapM (Beam.row p c) = .ok rows ∧
        (survivors width ((paths.zip rows).flatMap fun pr => extensions pr.1 pr.2)).mapM
          (follow p) = .ok paths' := by
  unfold Beam.step
  exact bind_eq_ok_iff.trans
    (exists_congr fun rows => and_congr_left' Workers.forkJoin_eq_ok_iff)

/-- The extensions of a step are those of its paths by their own rows. -/
theorem mem_flatMap_extensions {p : Position α} {c : Constraint} {paths : List (Path α)}
    {rows : List (List α)} (hrows : paths.mapM (Beam.row p c) = .ok rows) {e : Extension α} :
    e ∈ (paths.zip rows).flatMap (fun pr => extensions pr.1 pr.2) ↔
      ∃ path ∈ paths, ∃ row, Beam.row p c path = .ok row ∧ e ∈ extensions path row := by
  have hforall := forall₂_of_mapM hrows
  constructor
  · intro he
    obtain ⟨⟨path, row⟩, hpr, he⟩ := List.mem_flatMap.mp he
    exact ⟨path, (List.of_mem_zip hpr).1, row, List.forall₂_zip hforall hpr, he⟩
  · rintro ⟨path, hpath, row, hrow, he⟩
    obtain ⟨row', hpr, hrow'⟩ := exists_mem_zip hforall hpath
    obtain rfl : row = row' := Except.ok.inj (hrow.symm.trans hrow')
    exact List.mem_flatMap.mpr ⟨(path, row), hpr, he⟩

/-- The best candidate of a search is the first of all. -/
theorem head?_candidates {p : Position α} {width : Nat} {constrained : Bool} {found : Found α}
    (h : Beam.search p width constrained = .ok found) :
    found.candidates.head? = some found.best := by
  unfold Beam.search at h
  split at h
  · cases h
  · next hwidth =>
    split at h
    · cases h
      rw [List.head?_replicate, if_neg (mt Or.inl hwidth)]
    · obtain ⟨paths, -, h⟩ := bind_eq_ok_iff.mp h
      split at h
      · cases h
      · cases h
        rfl

theorem mem_candidates {p : Position α} {width : Nat} {constrained : Bool} {found : Found α}
    (h : Beam.search p width constrained = .ok found) {candidate : Candidate α}
    (hmem : candidate ∈ found.best :: found.candidates) : candidate ∈ found.candidates := by
  rcases List.mem_cons.mp hmem with rfl | hmem
  · exact List.mem_of_mem_head? (head?_candidates h)
  · exact hmem

end Beam

/-! ## Samples -/

/-- What a sample does at a step. -/
theorem Sample.exists_of_walk {p : Position α} {params : Sample.Params α} {w w' : Sample.Walker α}
    (h : Sample.walk p params w = .ok w') : ∃ raw index choice row,
      p.scores w.path.sequence = .ok raw ∧
      row = ((p.constraint params.constrained).constrain w.path.sequence raw).row ∧
      Row.draw row params.temperature params.topK w.source = (some index, w'.source) ∧
      p.choose w.path.sequence.length index = .ok choice ∧
      w'.path = w.path.extend choice (w.path.score + Row.logProb row index) := by
  obtain ⟨raw, hraw, h⟩ := bind_eq_ok_iff.mp h
  dsimp only at h
  split at h
  · split at h
    · cases h
    · next index source hdraw =>
      obtain ⟨choice, hchoose, h⟩ := bind_eq_ok_iff.mp h
      cases h
      exact ⟨raw, index, choice, _, hraw, rfl, hdraw, hchoose, rfl⟩
  · cases h

/-- A sample makes one choice at a step. -/
theorem Sample.length_walk {p : Position α} {params : Sample.Params α} {w w' : Sample.Walker α}
    (h : Sample.walk p params w = .ok w') :
    w'.path.sequence.length = w.path.sequence.length + 1 := by
  obtain ⟨raw, index, choice, row, -, -, -, -, hpath⟩ := Sample.exists_of_walk h
  rw [hpath]
  exact Sequence.length_push _ _

theorem Sample.length_walks {p : Position α} {params : Sample.Params α} {n : Nat}
    {w w' : Sample.Walker α} (h : takeSteps (Sample.walk p params) n w = .ok w') :
    w'.path.sequence.length = w.path.sequence.length + n := by
  refine takeSteps_invariant (fun i (w' : Sample.Walker α) =>
    w'.path.sequence.length = w.path.sequence.length + i) (fun i s s' _ hlength hwalk => ?_) rfl h
  rw [Sample.length_walk hwalk, hlength, Nat.add_assoc]

theorem Sample.length_takeSteps {p : Position α} {params : Sample.Params α} {n : Nat}
    {walkers : List (Sample.Walker α)}
    (h : takeSteps (fun walkers => p.workers.forkJoin walkers (Sample.walk p params)) n
      (Sample.start params) = .ok walkers) : ∀ w ∈ walkers, w.path.sequence.length = n := by
  refine takeSteps_forkJoin_invariant
    (fun steps (w : Sample.Walker α) => w.path.sequence.length = steps)
    (fun _ _ _ hlength hwalk => by rw [Sample.length_walk hwalk, hlength]) (fun w hw => ?_) h
  obtain ⟨i, -, rfl⟩ := List.mem_map.mp hw
  rfl

variable [LawfulScore α]

theorem lt_posInf_of_checkTemperature {temperature : α}
    (h : checkTemperature temperature = .ok ()) : temperature < posInf := by
  refine Position.noScore?_eq_none_iff.mp ?_
  unfold checkTemperature nonFinite? at h
  cases hscore : noScore? temperature with
  | none => rfl
  | some value =>
    rw [hscore] at h
    cases h

theorem Sample.reached_walk {p : Position α} {params : Sample.Params α} {w w' : Sample.Walker α}
    (htemperature : params.temperature < posInf)
    (h : Reached p (p.constraint params.constrained) id w.path.sequence)
    (hwalk : Sample.walk p params w = .ok w') :
    Reached p (p.constraint params.constrained) id w'.path.sequence := by
  obtain ⟨raw, index, choice, _, hraw, rfl, hdraw, hchoose, hpath⟩ := Sample.exists_of_walk hwalk
  obtain ⟨x, hx, hopen⟩ := Row.draw_eq_some htemperature hdraw
  rw [hpath]
  exact .push h hraw hx hopen hchoose

theorem Sample.exists_reached {p : Position α} {params : Sample.Params α}
    {candidates : List (Candidate α)} (h : Sample.run p params = .ok candidates)
    {candidate : Candidate α} (hmem : candidate ∈ candidates) :
    ∃ s, Reached p (p.constraint params.constrained) id s ∧ candidate.choices = s.choices ∧
      candidate.origin = .sample := by
  unfold Sample.run at h
  split at h
  · cases h
  · obtain ⟨⟨⟩, htemperature, h⟩ := bind_eq_ok_iff.mp h
    obtain ⟨walkers, hwalkers, h⟩ := bind_eq_ok_iff.mp h
    cases h
    obtain ⟨w, hw, rfl⟩ := List.mem_map.mp hmem
    have hfinite := lt_posInf_of_checkTemperature htemperature
    have hrun := takeSteps_forkJoin_invariant
      (fun _ (w : Sample.Walker α) =>
        Reached p (p.constraint params.constrained) id w.path.sequence)
      (fun _ _ _ hreached hwalk => Sample.reached_walk hfinite hreached hwalk)
      (fun w hw => by
        obtain ⟨i, -, rfl⟩ := List.mem_map.mp hw
        exact .start)
      hwalkers
    exact ⟨w.path.sequence, hrun w hw, rfl, rfl⟩

/-! ## Beams -/

namespace Beam

/-- A path of a beam search: its score is at most zero, and not lost. -/
structure Kept (p : Position α) (c : Constraint) (steps : Nat) (path : Path α) : Prop
    extends path.Replayed p c Row.logSoftmax steps where
  nonpos : path.score ≤ 0
  unmasked : negInf < path.score

/-- A survivor extends a path of its own row by an entry that is left. -/
theorem kept_follow {p : Position α} {c : Constraint} {steps : Nat} {path path' : Path α}
    {row : List α} {e : Extension α} (h : Kept p c steps path) (hrow : Beam.row p c path = .ok row)
    (he : e ∈ extensions path row) (hopen : ¬ e.score ≤ negInf)
    (hfollow : follow p e = .ok path') : Kept p c (steps + 1) path' := by
  obtain ⟨raw, hraw, rfl, -⟩ := row_eq_ok_iff.mp hrow
  obtain ⟨rfl, x, hx, hscore⟩ := mem_extensions_iff.mp he
  obtain ⟨choice, hchoose, hfollow⟩ := bind_eq_ok_iff.mp hfollow
  cases hfollow
  have hvalid := Position.valid_of_scores hraw
  have hpath := lt_posInf_of_nonpos h.nonpos
  have hxopen : ¬ x ≤ negInf := by
    intro hle
    rw [eq_negInf hle, add_negInf hpath] at hscore
    rw [hscore] at hopen
    exact hopen negInf_le_negInf
  have hxne : x ≠ negInf := by
    rintro rfl
    exact hxopen negInf_le_negInf
  have hlogProb := Constraint.logProb_of_constrained hx hxne
  have hextend := h.toReplayed.extend hraw hx hxopen hchoose
  rw [hlogProb, ← hscore] at hextend
  have hnonpos : e.score ≤ 0 := by
    rw [hscore]
    exact add_nonpos h.nonpos (hlogProb ▸ Row.logProb_nonpos hvalid e.index)
  exact ⟨hextend, hnonpos, negInf_lt (le_self_left hnonpos) hopen⟩

theorem kept_step {p : Position α} {c : Constraint} {width steps : Nat}
    {paths paths' : List (Path α)} (h : ∀ path ∈ paths, Kept p c steps path)
    (hstep : Beam.step p c width paths = .ok paths') :
    ∀ path' ∈ paths', Kept p c (steps + 1) path' := by
  obtain ⟨rows, hrows, hfollow⟩ := step_eq_ok_iff.mp hstep
  intro path' hpath'
  obtain ⟨e, he, hpath'⟩ := exists_of_mem_mapM hfollow hpath'
  obtain ⟨hall, hopen⟩ := mem_of_mem_survivors he
  obtain ⟨path, hpath, row, hrow, he⟩ := (mem_flatMap_extensions hrows).mp hall
  exact kept_follow (h path hpath) hrow he hopen hpath'

theorem kept_start (p : Position α) (c : Constraint) : Kept p c 0 Path.start :=
  ⟨Path.replayed_start p c _, zero_le_zero, negInf_lt_zero⟩

theorem kept_takeSteps {p : Position α} {c : Constraint} {width n : Nat} {paths : List (Path α)}
    (h : takeSteps (Beam.step p c width) n [Path.start] = .ok paths) :
    ∀ path ∈ paths, Kept p c n path :=
  takeSteps_invariant (fun steps (paths : List (Path α)) => ∀ path ∈ paths, Kept p c steps path)
    (fun _ _ _ _ hs hstep => kept_step hs hstep)
    (fun _ hpath => List.mem_singleton.mp hpath ▸ kept_start p c) h

theorem exists_path {p : Position α} {width : Nat} {constrained : Bool} {found : Found α}
    (h : Beam.search p width constrained = .ok found) {candidate : Candidate α}
    (hmem : candidate ∈ found.best :: found.candidates) :
    ∃ path, Kept p (p.constraint constrained) p.numSteps path ∧
      candidate = Beam.candidate path := by
  replace hmem := mem_candidates h hmem
  unfold Beam.search at h
  split at h
  · cases h
  · split at h
    · next hzero =>
      cases h
      exact ⟨Path.start, hzero ▸ kept_start p _, List.eq_of_mem_replicate hmem⟩
    · obtain ⟨paths, hpaths, h⟩ := bind_eq_ok_iff.mp h
      split at h
      · cases h
      · next best rest =>
        cases h
        have hkept := kept_takeSteps hpaths
        obtain ⟨path, hpath, rfl⟩ := List.mem_map.mp hmem
        exact ⟨path, hkept path hpath, rfl⟩

end Beam

end OrderDecoding
