/-
# `Proofs.Optimality` — without a mask a beam search is exact in its scores

A beam search drops paths at every step, and a path that is dropped takes
all its continuations with it.  Where rows depend neither on what was chosen
before nor on a mask this costs nothing.  The scores that the search returns
are then the first of ALL sequences' scores in descending order, as many as
there are places and open scores (`search_kBest`); so the best score does not
depend on the number of places.

All sequences are listed here one by one (`entrySequences`) and each is
scored by a replay of its choices.  The list of their scores grows as the
search does: by all sums with the row of the next step (`allSums`,
`entriesLogProb_concat`).  The search holds the best of that list after every
step (`scores_takeSteps`), because the best sums of the best are the best of
all.
-/
import OrderDecoding.Proofs.BestScores
import OrderDecoding.Proofs.Exactness
import OrderDecoding.Proofs.Width

namespace OrderDecoding

open Score LawfulScore

/-! ## All sequences of entries -/

/-- All sequences of `n` entries of a vocabulary. -/
def entrySequences (size : Nat) : Nat → List (List Nat)
  | 0 => [[]]
  | n + 1 => (entrySequences size n).flatMap fun s => (List.range size).map fun i => s ++ [i]

theorem mem_entrySequences {size n : Nat} {s : List Nat} :
    s ∈ entrySequences size n ↔ s.length = n ∧ ∀ i ∈ s, i < size := by
  induction n generalizing s with
  | zero =>
    rw [entrySequences, List.mem_singleton, List.length_eq_zero_iff]
    refine ⟨fun h => ⟨h, ?_⟩, And.left⟩
    rintro i hi
    rw [h] at hi
    cases hi
  | succ n ih =>
    simp only [entrySequences, List.mem_flatMap, List.mem_map, List.mem_range]
    constructor
    · rintro ⟨first, hfirst, i, hi, rfl⟩
      obtain ⟨hlength, hall⟩ := ih.mp hfirst
      refine ⟨by rw [List.length_append, List.length_singleton, hlength], fun j hj => ?_⟩
      rcases List.mem_append.mp hj with hj | hj
      · exact hall j hj
      · exact List.mem_singleton.mp hj ▸ hi
    · rintro ⟨hlength, hall⟩
      rcases List.eq_nil_or_concat' s with rfl | ⟨first, i, rfl⟩
      · cases hlength
      · rw [List.length_append, List.length_singleton, Nat.succ_inj] at hlength
        exact ⟨first, ih.mpr ⟨hlength, fun j hj => hall j (List.mem_append_left _ hj)⟩, i,
          hall i (by simp), rfl⟩

/-- None is listed twice. -/
theorem nodup_entrySequences (size n : Nat) : (entrySequences size n).Nodup := by
  induction n with
  | zero => exact List.nodup_singleton []
  | succ n ih =>
    refine List.nodup_flatMap.mpr ⟨fun s _ => ?_, ih.imp fun {s s'} hne => ?_⟩
    · refine List.Nodup.map (fun i j hij => ?_) List.nodup_range
      exact List.singleton_inj.mp (List.append_cancel_left hij)
    · intro both hs hs'
      obtain ⟨i, -, rfl⟩ := List.mem_map.mp hs
      obtain ⟨j, -, heq⟩ := List.mem_map.mp hs'
      exact hne (List.append_inj_left' heq rfl).symm

namespace Row

variable {α : Type} [Score α]

/-- The sums of one entry each of the first `n` rows, from zero on and from
the left. -/
def allSums (rows : Nat → List α) : Nat → List α
  | 0 => [0]
  | n + 1 => sums (allSums rows n) (rows n)

theorem allSums_nonpos [LawfulScore α] {rows : Nat → List α} {n : Nat}
    (hrows : ∀ i < n, ∀ x ∈ rows i, x ≤ 0) : ∀ x ∈ allSums rows n, x ≤ 0 := by
  induction n with
  | zero =>
    intro x hx
    rw [List.mem_singleton.mp hx]
    exact zero_le_zero
  | succ n ih =>
    have hearlier := ih fun i hi => hrows i (Nat.lt_succ_of_lt hi)
    exact sums_nonpos hearlier (hrows n (Nat.lt_succ_self n))

end Row

variable {α : Type} [Score α] {p : Position α}

/-- The log-probability of a sequence of entries, read as orders of the
units. -/
def Position.entriesLogProb (p : Position α) (s : List Nat) : Except DecodeError α := do
  let choices ← s.zipIdx.mapM fun entry => p.choose entry.2 entry.1
  p.sequenceLogProb choices

/-- One more entry adds its log-probability. -/
theorem Position.entriesLogProb_concat {s : List Nat} {score x : α} {shared : List α} {i : Nat}
    (h : p.entriesLogProb s = .ok score) (hlt : s.length < p.numSteps)
    (hshares : p.Shares s.length shared) (hx : shared[i]? = some x) :
    p.entriesLogProb (s ++ [i]) = .ok (score + x) := by
  obtain ⟨choices, hchoices, hscore⟩ := bind_eq_ok_iff.mp h
  have hlength : choices.length = s.length := by
    rw [← (forall₂_of_mapM hchoices).length_eq, List.length_zipIdx]
  have hi : i < p.vocab.size := hshares.length ▸ (List.getElem?_eq_some_iff.mp hx).1
  obtain ⟨choice, hchoose⟩ := Position.exists_choose hlt hi
  obtain ⟨raw, hraw, rfl⟩ := hshares.row (Sequence.ofChoices choices)
    (by rw [Sequence.length_ofChoices, hlength])
  have hsum := Position.sequenceLogProb_concat hscore hraw (hlength.symm ▸ hchoose)
  rw [Row.logProb, hx, Option.getD_some] at hsum
  refine bind_eq_ok_iff.mpr ⟨choices ++ [choice], ?_, hsum⟩
  rw [List.zipIdx_append, Nat.zero_add]
  exact mapM_of_forall₂ (List.rel_append (forall₂_of_mapM hchoices) (.cons hchoose .nil))

/-- The sequences of each length are scored by the sums of the rows so
far. -/
theorem Position.forall₂_entriesLogProb {rows : Nat → List α}
    (hshares : ∀ n < p.numSteps, p.Shares n (rows n)) {n : Nat} (hn : n ≤ p.numSteps) :
    List.Forall₂ (fun s x => s.length = n ∧ p.entriesLogProb s = .ok x)
      (entrySequences p.vocab.size n) (Row.allSums rows n) := by
  induction n with
  | zero => exact .cons ⟨rfl, rfl⟩ .nil
  | succ n ih =>
    have hlt : n < p.numSteps := hn
    have hrow := hshares n hlt
    refine List.rel_flatMap (ih (Nat.le_of_lt hlt)) fun s score hs => ?_
    obtain ⟨hlength, hscore⟩ := hs
    refine List.forall₂_map_left_iff.mpr (List.forall₂_map_right_iff.mpr ?_)
    refine forall₂_iff_getElem?.mpr ⟨?_, fun i index x hindex hx => ?_⟩
    · rw [List.length_range, hrow.length]
    · obtain ⟨-, rfl⟩ := List.getElem?_eq_some_iff.mp hindex
      rw [List.getElem_range]
      refine ⟨by rw [List.length_append, List.length_singleton, hlength], ?_⟩
      exact Position.entriesLogProb_concat hscore (hlength ▸ hlt) (hlength ▸ hrow) hx

namespace Beam

theorem scores_offers {c : Constraint} (hopen : c.enabled = false) (shared : List α)
    (paths : List (Path α)) :
    (offers c shared paths).map (·.score) = Row.sums (paths.map (·.score)) shared := by
  rw [offers, List.map_flatMap, Row.sums, List.flatMap_map]
  refine List.flatMap_congr fun path _ => ?_
  rw [scores_extensions, Constraint.constrain_eq_self (Or.inl hopen)]

variable [LawfulScore α]

/-- After every step the paths have the best scores of all sequences so
far. -/
theorem scores_takeSteps (habsorb : ∀ x : α, x ≤ 0 → negInf + x = negInf) {rows : Nat → List α}
    (hshares : ∀ n < p.numSteps, p.Shares n (rows n)) {width : Nat} (hwidth : 1 ≤ width) {n : Nat}
    (hn : n ≤ p.numSteps) {paths : List (Path α)}
    (h : takeSteps (Beam.step p (p.constraint false) width) n [Path.start] = .ok paths) :
    paths.map (·.score) = Row.bestOpen width (Row.allSums rows n) := by
  induction n generalizing paths with
  | zero =>
    cases h
    have hsplits : Row.Splits width [(0 : α)] [0] [] :=
      ⟨.refl _, List.pairwise_singleton _ _, fun x hx => List.mem_singleton.mp hx ▸
        not_le_of_lt negInf_lt_zero, hwidth, nofun⟩
    exact hsplits.eq.symm
  | succ n ih =>
    rw [takeSteps_succ] at h
    obtain ⟨earlier, hearlier, hstep⟩ := bind_eq_ok_iff.mp h
    have hlength : ∀ path ∈ earlier, path.sequence.length = n := fun path hpath =>
      (kept_takeSteps hearlier path hpath).length
    rw [step_of_shares (hshares n hn) hlength] at hstep
    calc paths.map (·.score)
        = (survivors width (offers (p.constraint false) (rows n) earlier)).map (·.score) :=
          scores_of_follow hstep
      _ = Row.bestOpen width (Row.sums (earlier.map (·.score)) (rows n)) := by
          rw [scores_survivors, scores_offers rfl]
      _ = Row.bestOpen width (Row.sums (Row.bestOpen width (Row.allSums rows n)) (rows n)) := by
          rw [ih (Nat.le_of_succ_le hn) hearlier]
      _ = Row.bestOpen width (Row.allSums rows (n + 1)) :=
          Row.bestOpen_sums habsorb width
            (Row.allSums_nonpos fun i hi => (hshares i (Nat.lt_trans hi hn)).nonpos)
            (hshares n hn).nonpos

omit [Score α] [LawfulScore α] in
/-- What stands first is the best score. -/
theorem head?_of_scores {found : Found α} {scores : List α} {k : Nat}
    (hbest : found.candidates.head? = some found.best)
    (h : found.candidates.map (·.score) = scores.take k) :
    1 ≤ k ∧ scores.head? = some found.best.score := by
  have hhead := congrArg List.head? h
  rw [List.head?_take, List.head?_map, hbest, Option.map_some] at hhead
  split at hhead
  · cases hhead
  · next hk => exact ⟨Nat.one_le_iff_ne_zero.mpr hk, hhead.symm⟩

/-- A search returns the best scores of all sequences. -/
theorem exists_search_bestOpen (hmass : p.AlwaysMass) (hunits : 0 < p.numSteps)
    (habsorb : ∀ x : α, x ≤ 0 → negInf + x = negInf) {rows : Nat → List α}
    (hshares : ∀ n < p.numSteps, p.Shares n (rows n)) {width : Nat} (hwidth : 1 ≤ width)
    (hsize : width ≤ p.vocab.size) : ∃ found, Beam.search p width false = .ok found ∧
      found.candidates.map (·.score) = Row.bestOpen width (Row.allSums rows p.numSteps) := by
  obtain ⟨paths, hpaths, -⟩ :=
    exists_takeSteps (c := p.constraint false) hmass hwidth (Nat.le_refl p.numSteps)
  have hscores := scores_takeSteps habsorb hshares hwidth (Nat.le_refl _) hpaths
  have hsearch := search_of_takeSteps hunits hwidth hsize hpaths
  cases paths with
  | nil =>
    obtain ⟨i, -, hover⟩ := (eq_nil_iff_overflowsAt hwidth hpaths).mp rfl
    exact absurd hover (not_overflowsAt_of_open (Or.inl rfl))
  | cons best rest =>
    refine ⟨_, hsearch, ?_⟩
    rw [← hscores, List.map_map]
    rfl

/-- Where rows have no history a beam search without a mask is exact in its
scores: whatever the number of places, it returns the first of the scores of
all sequences in descending order, as many as there are places and scores
above `-∞`; and its best score is always the same. -/
theorem search_kBest (p : Position α) (hfree : p.HistoryFree) (hmass : p.AlwaysMass)
    (hunits : 0 < p.numSteps) (habsorb : ∀ x : α, x ≤ 0 → negInf + x = negInf) :
    ∃ scores best,
      (entrySequences p.vocab.size p.numSteps).mapM p.entriesLogProb = .ok scores ∧
      1 ≤ Row.openCount scores ∧
      ∀ width, 1 ≤ width → width ≤ p.vocab.size →
        ∃ found, Beam.search p width false = .ok found ∧
          found.candidates.map (·.score) =
            (Row.descending scores).take (min width (Row.openCount scores)) ∧
          found.candidates.head? = some found.best ∧ found.best.score = best := by
  have hrows : ∀ n, ∃ shared, n < p.numSteps → p.Shares n shared := by
    intro n
    by_cases hn : n < p.numSteps
    · obtain ⟨shared, hshared⟩ := Position.exists_shares hfree hmass hn
      exact ⟨shared, fun _ => hshared⟩
    · exact ⟨[], fun h => absurd h hn⟩
  choose rows hshares using hrows
  have hentries := Position.forall₂_entriesLogProb hshares (Nat.le_refl p.numSteps)
  have hvalid : Row.Valid (Row.allSums rows p.numSteps) :=
    Row.valid_of_nonpos (Row.allSums_nonpos fun i hi => (hshares i hi).nonpos)
  have hfound : ∀ width, 1 ≤ width → width ≤ p.vocab.size →
      ∃ found, Beam.search p width false = .ok found ∧ found.candidates.map (·.score) =
        (Row.descending (Row.allSums rows p.numSteps)).take
          (min width (Row.openCount (Row.allSums rows p.numSteps))) := by
    intro width hwidth hsize
    rw [← Row.bestOpen_eq_take width hvalid]
    exact exists_search_bestOpen hmass hunits habsorb hshares hwidth hsize
  obtain ⟨narrow, hone, hnarrow⟩ := hfound 1 (Nat.le_refl 1) p.vocab.one_le_size
  obtain ⟨hpos, hhead⟩ := head?_of_scores (head?_candidates hone) hnarrow
  refine ⟨_, narrow.best.score, mapM_of_forall₂ (hentries.imp fun _ _ h => h.2),
    Nat.le_trans hpos (Nat.min_le_right _ _), fun width hwidth hsize => ?_⟩
  obtain ⟨found, hsearch, hscores⟩ := hfound width hwidth hsize
  have hfirst := head?_candidates hsearch
  have hbest := (head?_of_scores hfirst hscores).2
  exact ⟨found, hsearch, hscores, hfirst, Option.some.inj (hbest.symm.trans hhead)⟩

end Beam

/-- Four of all 2197 sequences are open.  Three places are all taken; of
thirteen four are. -/
theorem branching_kBest :
    ((Beam.search branching 3 false).map (fun found => found.candidates.map (·.score)) =
        .ok ([0, 0, -200] : List Float) ∧
      (Beam.search branching 13 false).map (fun found => found.candidates.map (·.score)) =
        .ok ([0, 0, -200, -200] : List Float)) ∧
    (branching.HistoryFree ∧ branching.AlwaysMass ∧ 0 < branching.numSteps ∧
      ∀ x : Stark, x ≤ 0 → negInf + x = negInf) ∧
    ∃ scores best, (entrySequences 13 3).mapM branching.entriesLogProb = .ok scores ∧
      1 ≤ Row.openCount scores ∧
      (∃ found, Beam.search branching 3 false = .ok found ∧ found.candidates.map (·.score) =
        (Row.descending scores).take (min 3 (Row.openCount scores)) ∧
          found.candidates.head? = some found.best ∧ found.best.score = best) ∧
      ∃ found, Beam.search branching 13 false = .ok found ∧ found.candidates.map (·.score) =
        (Row.descending scores).take (min 13 (Row.openCount scores)) ∧
          found.candidates.head? = some found.best ∧ found.best.score = best := by
  have hfree : branching.HistoryFree := Position.historyFree_table rfl
  have habsorb : ∀ x : Stark, x ≤ 0 → negInf + x = negInf := fun _ => Stark.negInf_add
  have hunits : 0 < branching.numSteps := by decide
  obtain ⟨scores, best, hscores, hopen, hsearch⟩ :=
    Beam.search_kBest branching hfree alwaysMass_branching hunits habsorb
  have hthree : (Beam.search branching 3 false).map (fun found => found.candidates.map (·.score))
      = .ok ([0, 0, -200] : List Float) := by decide +kernel
  have hthirteen : (Beam.search branching 13 false).map
      (fun found => found.candidates.map (·.score)) = .ok ([0, 0, -200, -200] : List Float) := by
    decide +kernel
  exact ⟨⟨hthree, hthirteen⟩, ⟨hfree, alwaysMass_branching, hunits, habsorb⟩,
    scores, best, hscores, hopen,
    hsearch 3 (by decide) (by decide), hsearch 13 (by decide) (by decide)⟩

end OrderDecoding
