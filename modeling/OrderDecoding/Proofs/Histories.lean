/-
# `Proofs.Histories` — what a scorer is told of the steps before

Beside the units a scorer is told the orders chosen so far, and these are
never just any orders: there is one for each of the units before the last,
and it is the reading of some entry of the vocabulary for THAT unit.  Such a
list of orders is a HISTORY (`Position.IsHistory`).

All strategies come by their orders in one way, by extending a path by an
entry that `choose` has read for the next unit (`Path.Extends`), and that
makes a longer history of a history.  What every such extension keeps holds
of all paths that a strategy HOLDS after any number of steps
(`Path.Held.invariant`).  So it is a history that a path has collected
(`Path.Grown`), whichever strategy grew it, and what decoding gives out in
the end (`Decoded.isHistory`).  Choices from
elsewhere are no exception where they are replayed: the replay asks for
nothing before it has checked that they are one.
-/
import OrderDecoding.Proofs.Frontier
import OrderDecoding.Proofs.Pooling
import OrderDecoding.Proofs.Rescoring
import OrderDecoding.Proofs.Streams

namespace OrderDecoding

variable {α : Type}

/-! ## Histories -/

namespace Position

/-- The order is what some entry of the vocabulary means for the unit. -/
def Reads (p : Position α) (unit : Area) (order : Order) : Prop :=
  ∃ index < p.vocab.size, p.vocab.orderAt index unit p.units.phase = .ok order

/-- One order for each of the first `step` units, each read for its unit. -/
def IsHistory (p : Position α) (step : Nat) (prior : List Order) : Prop :=
  List.Forall₂ p.Reads (p.units.areas.take step) prior

variable {p : Position α}

theorem isHistory_zero : p.IsHistory 0 [] := .nil

theorem IsHistory.length {step : Nat} {prior : List Order} (h : p.IsHistory step prior)
    (hle : step ≤ p.numSteps) : prior.length = step := by
  have hlength := List.Forall₂.length_eq h
  rw [List.length_take] at hlength
  exact hlength.symm.trans (Nat.min_eq_left hle)

/-- The first orders of a history are a history of their own. -/
theorem IsHistory.take {step i : Nat} {prior : List Order} (h : p.IsHistory step prior)
    (hle : i ≤ step) : p.IsHistory i (prior.take i) := by
  have htake := List.forall₂_take i h
  rwa [List.take_take, Nat.min_eq_left hle] at htake

/-- Each order of a history is read for one of the units. -/
theorem IsHistory.exists_reads {step : Nat} {prior : List Order} (h : p.IsHistory step prior)
    {order : Order} (horder : order ∈ prior) : ∃ unit ∈ p.units.areas, p.Reads unit order := by
  obtain ⟨i, hi⟩ := List.mem_iff_getElem?.mp horder
  obtain ⟨hlength, hreads⟩ := forall₂_iff_getElem?.mp h
  obtain ⟨unit, hunit⟩ := exists_getElem? hlength.symm hi
  exact ⟨unit, List.mem_of_mem_take (List.mem_of_getElem? hunit), hreads i unit order hunit hi⟩

theorem exists_reads_of_choose {step index : Nat} {choice : Choice}
    (h : p.choose step index = .ok choice) :
    ∃ unit, p.units.areas[step]? = some unit ∧ p.Reads unit choice.order := by
  obtain ⟨-, unit, hunit, horder⟩ := choose_eq_ok_iff.mp h
  exact ⟨unit, hunit, index, lt_size_of_choose h, horder⟩

/-- A choice for the next unit makes a history longer. -/
theorem IsHistory.concat {step index : Nat} {prior : List Order} {choice : Choice}
    (h : p.IsHistory step prior) (hchoose : p.choose step index = .ok choice) :
    p.IsHistory (step + 1) (prior ++ [choice.order]) := by
  obtain ⟨unit, hunit, hreads⟩ := exists_reads_of_choose hchoose
  have htake : p.units.areas.take (step + 1) = p.units.areas.take step ++ [unit] := by
    rw [List.take_add_one, hunit, Option.toList_some]
  unfold IsHistory
  rw [htake]
  exact List.rel_append h (.cons hreads .nil)

theorem isHistory_of_choose {choices : List Choice}
    (h : ∀ i choice, choices[i]? = some choice → p.choose i choice.index = .ok choice) :
    p.IsHistory choices.length (choices.map (·.order)) := by
  induction choices using List.reverseRecOn with
  | nil => exact isHistory_zero
  | append_singleton choices choice ih =>
    rw [List.map_append, List.length_append]
    refine IsHistory.concat (ih fun i c hc => h i c ?_) (h choices.length choice ?_)
    · rwa [List.getElem?_append_left (List.getElem?_eq_some_iff.mp hc).1]
    · exact List.getElem?_concat_length

/-- Choices that pass their checks are a history. -/
theorem isHistory_of_checks {choices : List Choice}
    (h : (choices.zipIdx.forM fun entry => p.checkChoice entry.2 entry.1) = .ok ()) :
    p.IsHistory choices.length (choices.map (·.order)) :=
  isHistory_of_choose (checks_eq_ok_iff.mp h)

end Position

/-! ## Paths -/

/-- The second path has one choice more than the first, read for the next
unit. -/
def Path.Extends (p : Position α) (path path' : Path α) : Prop :=
  ∃ index choice score, p.choose path.sequence.length index = .ok choice ∧
    path' = path.extend choice score

/-- A path of `n` choices whose orders are a history. -/
structure Path.Grown (p : Position α) (n : Nat) (path : Path α) : Prop where
  length : path.sequence.length = n
  history : p.IsHistory n path.sequence.orders

theorem Path.Grown.next {p : Position α} {n : Nat} {path path' : Path α} (h : path.Grown p n)
    (hextends : path.Extends p path') : path'.Grown p (n + 1) := by
  obtain ⟨index, choice, score, hchoose, rfl⟩ := hextends
  rw [h.length] at hchoose
  refine ⟨?_, ?_⟩
  · rw [Path.extend, Sequence.length_push, h.length]
  · rw [Path.extend, Sequence.orders, Sequence.choices_push, List.map_append]
    exact h.history.concat hchoose

theorem Path.Grown.isHistory {p : Position α} {n : Nat} {path : Path α} (h : path.Grown p n) :
    p.IsHistory path.sequence.choices.length (path.sequence.choices.map (·.order)) := by
  have hlength : path.sequence.choices.length = n := h.length
  rw [hlength]
  exact h.history

variable [Score α]

theorem Path.grown_start (p : Position α) : (Path.start : Path α).Grown p 0 :=
  ⟨rfl, Position.isHistory_zero⟩

/-! ## Strategies -/

theorem Greedy.extends_step {p : Position α} {c : Constraint} {path path' : Path α}
    (h : Greedy.step p c path = .ok path') : path.Extends p path' := by
  obtain ⟨raw, index, choice, -, -, hchoose, hpath⟩ := Greedy.step_eq_ok_iff.mp h
  exact ⟨index, choice, _, hchoose, hpath⟩

theorem Sample.extends_walk {p : Position α} {params : Sample.Params α} {w w' : Sample.Walker α}
    (h : Sample.walk p params w = .ok w') : w.path.Extends p w'.path := by
  obtain ⟨raw, index, choice, row, -, -, -, hchoose, hpath⟩ := Sample.exists_of_walk h
  exact ⟨index, choice, _, hchoose, hpath⟩

/-- Each path after a step extends one from before. -/
theorem Beam.extends_step {p : Position α} {c : Constraint} {width : Nat}
    {paths paths' : List (Path α)} (h : Beam.step p c width paths = .ok paths')
    {path' : Path α} (hpath' : path' ∈ paths') : ∃ path ∈ paths, path.Extends p path' := by
  obtain ⟨rows, hrows, hfollow⟩ := Beam.step_eq_ok_iff.mp h
  obtain ⟨e, he, hpath'⟩ := exists_of_mem_mapM hfollow hpath'
  obtain ⟨path, hpath, row, -, he⟩ :=
    (Beam.mem_flatMap_extensions hrows).mp (Beam.mem_of_mem_survivors he).1
  obtain ⟨rfl, -⟩ := Beam.mem_extensions_iff.mp he
  obtain ⟨choice, hchoose, hpath'⟩ := bind_eq_ok_iff.mp hpath'
  cases hpath'
  exact ⟨_, hpath, _, choice, _, hchoose, rfl⟩

/-! ## Runs -/

/-- The paths that some strategy holds after `n` steps, constrained or
not. -/
inductive Path.Held (p : Position α) (n : Nat) : Path α → Prop
  | greedy {c : Constraint} {path : Path α} :
      takeSteps (Greedy.step p c) n Path.start = .ok path → Held p n path
  | sample {params : Sample.Params α} {walkers : List (Sample.Walker α)} {w : Sample.Walker α} :
      takeSteps (Sample.lockstep p params) n (Sample.start params) = .ok walkers →
      w ∈ walkers → Held p n w.path
  | beam {c : Constraint} {width : Nat} {paths : List (Path α)} {path : Path α} :
      takeSteps (Beam.step p c width) n [Path.start] = .ok paths → path ∈ paths → Held p n path

/-- What holds of the start and is kept by every choice that is read for the
next unit holds of all paths, whichever strategy holds them. -/
theorem Path.Held.invariant {p : Position α} (P : Nat → Path α → Prop) (hstart : P 0 Path.start)
    (hnext : ∀ i path path', P i path → path.Extends p path' → P (i + 1) path')
    {n : Nat} {path : Path α} (h : path.Held p n) : P n path := by
  cases h with
  | greedy h =>
    exact takeSteps_invariant P
      (fun i _ _ _ hs hstep => hnext i _ _ hs (Greedy.extends_step hstep)) hstart h
  | sample h hw =>
    refine takeSteps_forkJoin_invariant (fun i (w : Sample.Walker α) => P i w.path)
      (fun i _ _ hs hwalk => hnext i _ _ hs (Sample.extends_walk hwalk)) (fun w hw => ?_) h _ hw
    obtain ⟨i, -, rfl⟩ := List.mem_map.mp hw
    exact hstart
  | beam h hpath =>
    refine takeSteps_invariant (fun i (paths : List (Path α)) => ∀ path ∈ paths, P i path)
      ?_ (fun path hpath => List.mem_singleton.mp hpath ▸ hstart) h _ hpath
    intro i paths paths' _ hs hstep path' hpath'
    obtain ⟨path, hpath, hextends⟩ := Beam.extends_step hstep hpath'
    exact hnext i path path' (hs path hpath) hextends

theorem Path.Held.grown {p : Position α} {n : Nat} {path : Path α} (h : path.Held p n) :
    path.Grown p n :=
  h.invariant (fun i (path : Path α) => path.Grown p i) (Path.grown_start p)
    fun _ _ _ hs hextends => hs.next hextends

/-- A path keeps nothing but its choices and what they claim. -/
theorem Path.Held.eq_ofChoices {p : Position α} {n : Nat} {path : Path α} (h : path.Held p n) :
    path.sequence = Sequence.ofChoices path.sequence.choices := by
  refine h.invariant (fun _ (path : Path α) =>
    path.sequence = Sequence.ofChoices path.sequence.choices) rfl ?_
  rintro _ path _ hs ⟨index, choice, score, -, rfl⟩
  rw [Path.extend, Sequence.choices_push, Sequence.ofChoices_concat, ← hs]

/-- Each choice of a path is its entry, read for the unit of its step. -/
theorem Path.Held.choose_eq {p : Position α} {n : Nat} {path : Path α} (h : path.Held p n)
    {i : Nat} {choice : Choice} (hchoice : path.sequence.choices[i]? = some choice) :
    p.choose i choice.index = .ok choice := by
  refine h.invariant (fun _ (path : Path α) => ∀ (i : Nat) (choice : Choice),
    path.sequence.choices[i]? = some choice → p.choose i choice.index = .ok choice)
    (fun _ _ hnone => nomatch hnone) ?_ i choice hchoice
  rintro _ path _ hs ⟨index, choice, score, hchoose, rfl⟩ i choice' hchoice'
  rw [Path.extend, Sequence.choices_push] at hchoice'
  rcases Nat.lt_or_ge i path.sequence.choices.length with hlt | hge
  · rw [List.getElem?_append_left hlt] at hchoice'
    exact hs i choice' hchoice'
  · rw [List.getElem?_append_right hge, List.getElem?_singleton] at hchoice'
    split at hchoice'
    · next hlast =>
      cases hchoice'
      have hi : i = path.sequence.length := Nat.le_antisymm (Nat.sub_eq_zero_iff_le.mp hlast) hge
      rwa [hi, Position.index_of_choose hchoose]
    · cases hchoice'

theorem Greedy.grown_takeSteps {p : Position α} {c : Constraint} {n : Nat} {path : Path α}
    (h : takeSteps (Greedy.step p c) n Path.start = .ok path) : path.Grown p n :=
  (Path.Held.greedy h).grown

theorem Sample.grown_takeSteps {p : Position α} {params : Sample.Params α} {n : Nat}
    {walkers : List (Sample.Walker α)}
    (h : takeSteps (Sample.lockstep p params) n (Sample.start params) = .ok walkers) :
    ∀ w ∈ walkers, w.path.Grown p n :=
  fun _ hw => (Path.Held.sample h hw).grown

namespace Beam

theorem grown_takeSteps {p : Position α} {c : Constraint} {width n : Nat} {paths : List (Path α)}
    (h : takeSteps (Beam.step p c width) n [Path.start] = .ok paths) :
    ∀ path ∈ paths, path.Grown p n :=
  fun _ hpath => (Path.Held.beam h hpath).grown

/-- The candidates of a search are paths of the full length. -/
theorem exists_grown {p : Position α} {width : Nat} {constrained : Bool} {found : Found α}
    (h : Beam.search p width constrained = .ok found) {c : Candidate α}
    (hc : c ∈ found.best :: found.candidates) :
    ∃ path : Path α, path.Grown p p.numSteps ∧ c = candidate path := by
  replace hc := mem_candidates h hc
  rcases Nat.eq_zero_or_pos p.numSteps with hnone | hunits
  · unfold Beam.search at h
    rw [if_pos hnone] at h
    split at h
    · cases h
    · cases h
      exact ⟨Path.start, hnone ▸ Path.grown_start p, List.eq_of_mem_replicate hc⟩
  · obtain ⟨-, paths, hpaths, hcandidates, -⟩ := (search_eq_ok_iff hunits).mp h
    rw [hcandidates] at hc
    obtain ⟨path, hpath, rfl⟩ := List.mem_map.mp hc
    exact ⟨path, grown_takeSteps hpaths path hpath, rfl⟩

end Beam

/-! ## Candidates -/

theorem Position.isHistory_of_sequenceLogProb {p : Position α} {choices : List Choice} {score : α}
    (h : p.sequenceLogProb choices = .ok score) :
    p.IsHistory choices.length (choices.map (·.order)) := by
  unfold Position.sequenceLogProb at h
  split at h
  · cases h
  · obtain ⟨⟨⟩, hchecks, -⟩ := bind_eq_ok_iff.mp h
    exact isHistory_of_checks hchecks

theorem Sample.isHistory_of_mem_run {p : Position α} {params : Sample.Params α}
    {candidates : List (Candidate α)} (h : Sample.run p params = .ok candidates) {c : Candidate α}
    (hc : c ∈ candidates) : p.IsHistory c.length c.orders := by
  rcases Nat.eq_zero_or_pos params.numSamples with hnone | hsome
  · rw [Sample.run, if_pos hnone] at h
    cases h
  · obtain ⟨-, walkers, hwalkers, rfl⟩ := (Sample.run_eq_ok_iff hsome).mp h
    obtain ⟨w, hw, rfl⟩ := List.mem_map.mp hc
    exact (Sample.grown_takeSteps hwalkers w hw).isHistory

/-- The orders that decoding gives out are a history, in whichever way they
were found. -/
theorem Decoded.isHistory {p : Position α} {c : Candidate α} (h : Decoded p c) :
    p.IsHistory c.length c.orders := by
  cases h with
  | searched h =>
    cases h with
    | greedy h =>
      obtain ⟨-, path, hpath, rfl⟩ := Greedy.decode_eq_ok_iff.mp h
      exact (Greedy.grown_takeSteps hpath).isHistory
    | beam h hc =>
      obtain ⟨path, hpath, rfl⟩ := Beam.exists_grown h hc
      exact hpath.isHistory
  | sampled h hc => exact Sample.isHistory_of_mem_run h hc
  | pooled h hc =>
    exact Position.isHistory_of_sequenceLogProb (replayed_of_mem_generate h hc)
  | rescored h hc => exact Position.isHistory_of_sequenceLogProb (replayed_of_mem_rescore h hc)

end OrderDecoding
