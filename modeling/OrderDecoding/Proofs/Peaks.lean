/-
# `Proofs.Peaks` — samples cut to one entry follow the greedy pass

Cut to one entry, a row leaves a sample nothing to choose, unless others
tie with the best.  What has to be free of ties is the row DIVIDED by the
temperature: dividing keeps the order, but entries that differ can fall
together, above all where they overflow.  A row that PEAKS after the
division has one entry that is larger than all others; and then it is the
largest before the division as well.

So where every row of a greedy pass peaks, a sample takes the same entry
at every step, whatever the random numbers (`Sample.walk_of_peak`), and
each of its rows is the one that the pass saw.
-/
import OrderDecoding.Proofs.Drawing
import OrderDecoding.Proofs.Reached
import OrderDecoding.Proofs.Streams

namespace OrderDecoding

open Score LawfulScore

variable {α : Type} [Score α]

namespace Row

variable {row : List α} {y z : α} {i j : Nat}

/-- Entry `i` is above `-∞` and above all other entries. -/
structure Peak (row : List α) (y : α) (i : Nat) : Prop where
  entry : row[i]? = some y
  unmasked : negInf < y
  lt : ∀ (j : Nat) (z : α), row[j]? = some z → j ≠ i → z < y

theorem peak_iff : Peak row y i ↔
    row[i]? = some y ∧ negInf < y ∧ ∀ e ∈ row.zipIdx, e.2 ≠ i → e.1 < y := by
  constructor
  · rintro ⟨hentry, hopen, hlt⟩
    exact ⟨hentry, hopen, fun e he => hlt e.2 e.1 (List.mem_zipIdx_iff_getElem?.mp he)⟩
  · rintro ⟨hentry, hopen, hlt⟩
    exact ⟨hentry, hopen, fun j z hz => hlt (z, j) (List.mem_zipIdx_iff_getElem?.mpr hz)⟩

instance [DecidableEq α] : Decidable (Peak row y i) := decidable_of_iff _ peak_iff.symm

/-- Entries that are all in one place are not two. -/
theorem countP_le_one {β : Type} {p : β → Bool} {l : List β} {i : Nat}
    (h : ∀ (j : Nat) (x : β), l[j]? = some x → p x = true → j = i) : l.countP p ≤ 1 := by
  induction l generalizing i with
  | nil => exact Nat.zero_le 1
  | cons x rest ih =>
    by_cases hx : p x = true
    · have hi : 0 = i := h 0 x rfl hx
      have hnone : ∀ y ∈ rest, ¬ p y = true := by
        intro y hy hpy
        obtain ⟨j, hj⟩ := List.mem_iff_getElem?.mp hy
        exact Nat.succ_ne_zero j ((h (j + 1) y hj hpy).trans hi.symm)
      rw [List.countP_cons_of_pos hx, List.countP_eq_zero.mpr hnone]
    · rw [List.countP_cons_of_neg hx]
      refine ih (i := i - 1) fun j y hy hpy => ?_
      have := h (j + 1) y hy hpy
      omega

theorem Peak.hasMass (h : Peak row y i) : Row.hasMass row = true :=
  hasMass_iff.mpr ⟨i, y, h.entry, h.unmasked⟩

/-- A cut at one entry leaves only the peak. -/
theorem Peak.eq_of_stays (h : Peak row y i) (hz : row[j]? = some z) (hstays : Stays row 1 z) :
    j = i := by
  by_contra hne
  have hi := (List.getElem?_eq_some_iff.mp h.entry).1
  have hj := (List.getElem?_eq_some_iff.mp hz).1
  have hnone := hstays Nat.one_pos (by omega)
  have hsome : 0 < numLarger row z :=
    List.countP_pos_iff.mpr ⟨y, List.mem_of_getElem? h.entry, decide_eq_true (h.lt j z hz hne)⟩
  omega

variable [LawfulScore α]

theorem Peak.countP_retained (h : Peak row y i) (hnum : Numbers row) :
    (retainTopK row 1).countP (fun x => decide (posInf ≤ x)) ≤ 1 := by
  refine countP_le_one (i := i) fun j z hz htop => ?_
  have hopen := lt_of_lt_of_le negInf_lt_posInf (of_decide_eq_true htop)
  obtain ⟨hentry, hstays⟩ := getElem?_retainTopK hnum hz hopen
  exact h.eq_of_stays hentry hstays

variable [LawfulQuotient α] {temperature : α}

/-- What peaks after the division is the best entry before it. -/
theorem Peak.argmax_eq (h : Peak (tempered row temperature) y i) (hvalid : Valid row)
    (ht : temperature < posInf) : argmax row = some i := by
  cases hargmax : argmax row with
  | none =>
    rw [argmax_eq_none_iff hvalid.numbers, hasMass_eq_false_iff hvalid.numbers] at hargmax
    have hlost := (hasMass_tempered_eq_false_iff hvalid ht).mpr (Or.inl hargmax)
    rw [h.hasMass] at hlost
    cases hlost
  | some j =>
    obtain ⟨x, hfirst⟩ := (argmax_eq_some_iff hvalid.numbers).mp hargmax
    obtain ⟨x', hx', rfl⟩ := getElem?_tempered_iff.mp h.entry
    refine congrArg some ?_
    by_contra hne
    have hlt := h.lt j _ (getElem?_tempered_iff.mpr ⟨x, hfirst.entry, rfl⟩) hne
    exact not_le_of_lt hlt (div_clamp_le (hfirst.le i x' hx') (hvalid.get hfirst.entry) ht)

/-- Cut to one entry, a draw gives the peak. -/
theorem Peak.draw_eq (h : Peak (tempered row temperature) y i) (hvalid : Valid row)
    (ht : temperature < posInf) (g : Generator) :
    ∃ g', draw row temperature 1 g = (some i, g') := by
  have hcount := h.countP_retained (numbers_tempered hvalid ht)
  obtain ⟨j, g', hdraw⟩ := exists_draw hvalid ht
    (Nat.lt_of_le_of_lt hcount (by decide)) h.hasMass g
  obtain ⟨x, hx, -, hstays⟩ := stays_of_draw hvalid ht hdraw
  exact ⟨g', h.eq_of_stays (getElem?_tempered_iff.mpr ⟨x, hx, rfl⟩) hstays ▸ hdraw⟩

end Row

/-! ## Steps side by side -/

/-- Every row of a greedy pass peaks after it has been constrained and divided
by the temperature. -/
def Greedy.Peaks (p : Position α) (temperature : α) (constrained : Bool) : Prop :=
  ∀ n < p.numSteps, ∀ path raw,
    takeSteps (Greedy.step p (p.constraint constrained)) n Path.start = .ok path →
    p.scores path.sequence = .ok raw →
    ∃ y i, Row.Peak (Row.tempered ((p.constraint constrained).constrain path.sequence raw).row
      temperature) y i

namespace Sample

variable [LawfulScore α] {p : Position α} {params : Params α}

/-- A sample goes on with what it has drawn. -/
theorem walk_of_draw (ht : params.temperature < posInf) {w : Walker α} {raw : List α}
    {index : Nat} {source : Generator} {choice : Choice}
    (hraw : p.scores w.path.sequence = .ok raw)
    (hdraw : Row.draw ((p.constraint params.constrained).constrain w.path.sequence raw).row
      params.temperature params.topK w.source = (some index, source))
    (hchoose : p.choose w.path.sequence.length index = .ok choice) :
    walk p params w = .ok
      { path := w.path.extend choice (w.path.score + Row.logProb
          ((p.constraint params.constrained).constrain w.path.sequence raw).row index)
        source } := by
  have hvalid := Constraint.valid_constrain (c := p.constraint params.constrained)
    (s := w.path.sequence) (Position.valid_of_scores hraw)
  have hmass : Row.hasMass
      ((p.constraint params.constrained).constrain w.path.sequence raw).row = true := by
    obtain ⟨x, hx, hopen⟩ := Row.draw_eq_some ht hdraw
    exact Row.hasMass_iff.mpr ⟨index, x, hx, negInf_lt (hvalid.numbers.get hx) hopen⟩
  unfold walk
  refine bind_eq_ok_iff.mpr ⟨raw, hraw, (if_pos hmass).trans ?_⟩
  simp only [Position.constraint] at hdraw
  rw [hdraw]
  exact bind_eq_ok_iff.mpr ⟨choice, hchoose, rfl⟩

variable [LawfulQuotient α]

/-- From the same choices a sample and a greedy pass make the same choice. -/
theorem walk_of_peak (htop : params.topK = 1) (ht : params.temperature < posInf)
    {w : Walker α} {path path' : Path α} (hsame : w.path.sequence = path.sequence)
    (hstep : Greedy.step p (p.constraint params.constrained) path = .ok path')
    (hpeak : ∀ raw, p.scores path.sequence = .ok raw → ∃ y i,
      Row.Peak (Row.tempered ((p.constraint params.constrained).constrain path.sequence raw).row
        params.temperature) y i) :
    ∃ w', walk p params w = .ok w' ∧ w'.path.sequence = path'.sequence := by
  obtain ⟨raw, index, choice, hraw, hargmax, hchoose, rfl⟩ := Greedy.step_eq_ok_iff.mp hstep
  obtain ⟨y, i, hpeak⟩ := hpeak raw hraw
  have hvalid := Constraint.valid_constrain (c := p.constraint params.constrained)
    (s := path.sequence) (Position.valid_of_scores hraw)
  obtain rfl : index = i := Option.some.inj (hargmax.symm.trans (hpeak.argmax_eq hvalid ht))
  obtain ⟨source, hdraw⟩ := hpeak.draw_eq hvalid ht w.source
  rw [← htop, ← hsame] at hdraw
  refine ⟨_, walk_of_draw ht (hsame ▸ hraw) hdraw (hsame ▸ hchoose), ?_⟩
  change w.path.sequence.push choice = path.sequence.push choice
  rw [hsame]

/-- Through all steps. -/
theorem takeSteps_of_peaks (htop : params.topK = 1) (ht : params.temperature < posInf)
    (hpeaks : Greedy.Peaks p params.temperature params.constrained) (i : Nat) {n : Nat}
    (hn : n ≤ p.numSteps) {path : Path α}
    (hpath : takeSteps (Greedy.step p (p.constraint params.constrained)) n Path.start
      = .ok path) :
    ∃ w, takeSteps (walk p params) n (walker params i) = .ok w ∧
      w.path.sequence = path.sequence := by
  induction n generalizing path with
  | zero =>
    cases hpath
    exact ⟨_, rfl, rfl⟩
  | succ n ih =>
    rw [takeSteps_succ] at hpath
    obtain ⟨before, hbefore, hstep⟩ := bind_eq_ok_iff.mp hpath
    obtain ⟨w, hw, hsame⟩ := ih (Nat.le_of_succ_le hn) hbefore
    obtain ⟨w', hwalk, hsame'⟩ := walk_of_peak htop ht hsame hstep fun raw hraw =>
      hpeaks n hn before raw hbefore hraw
    refine ⟨w', ?_, hsame'⟩
    rw [takeSteps_succ]
    exact bind_eq_ok_iff.mpr ⟨w, hw, hwalk⟩

/-- Samples cut to one entry are the greedy candidate, where the best entry is
clear at every step.  However many are asked for, each makes the choices of
the greedy pass. -/
theorem top_one_is_greedy {c : Candidate α} (hsome : 0 < params.numSamples)
    (htop : params.topK = 1)
    (hgreedy : Greedy.decode p params.temperature params.constrained = .ok c)
    (hpeaks : Greedy.Peaks p params.temperature params.constrained) :
    ∃ cs, run p params = .ok cs ∧ cs.length = params.numSamples ∧
      ∀ c' ∈ cs, c'.choices = c.choices := by
  obtain ⟨htemperature, path, hpath, rfl⟩ := Greedy.decode_eq_ok_iff.mp hgreedy
  have ht := lt_posInf_of_checkTemperature htemperature
  have halone : ∀ i < params.numSamples, ∃ c', run p (params.alone i) = .ok [c'] ∧
      c'.choices = path.sequence.choices := by
    intro i _
    obtain ⟨w, hw, hsame⟩ := takeSteps_of_peaks htop ht hpeaks i (Nat.le_refl _) hpath
    refine ⟨candidate w, ?_, congrArg Sequence.choices hsame⟩
    exact (run_eq_ok_iff (alone_pos params i)).mpr
      ⟨htemperature, [w], takeSteps_alone.mpr ⟨w, rfl, hw⟩, rfl⟩
  obtain ⟨cs, hrun⟩ := exists_run hsome fun i hi => (halone i hi).imp fun _ h => h.1
  obtain ⟨hlength, hcandidates⟩ := run_alone_of_run hsome hrun
  refine ⟨cs, hrun, hlength, fun c' hc' => ?_⟩
  obtain ⟨i, hi⟩ := List.mem_iff_getElem?.mp hc'
  obtain ⟨c'', hc'', hchoices⟩ := halone i (hlength ▸ (List.getElem?_eq_some_iff.mp hi).1)
  have hsame := (hcandidates i c' hi).symm.trans hc''
  cases hsame
  exact hchoices

end Sample

def ridgeRows : List (List Stark) :=
  [Stark.row 11 [(10, 0), (0, -200)], Stark.row 11 [(10, 0), (0, -100), (3, -300)]]

/-- Two units.  The first moves to where the second stands, which takes from
the second the entry that is best in both rows. -/
def ridge : Position Stark := Stark.position 2 ridgeRows

def ridgeSamples (numSamples : Nat) : Sample.Params Stark :=
  { numSamples, temperature := 1, topK := 1, constrained := true, seed := 5 }

def ridgeCandidate : Candidate Stark :=
  { choices := [⟨10, .move 0 1⟩, ⟨0, .hold 1⟩], score := (-100 : Float), origin := .greedy }

/-- The best entry of each row, and its place. -/
def ridgePeaks : List (Stark × Nat) := [((0 : Float), 10), ((-100 : Float), 0)]

theorem ridge_decode (n : Nat) : Greedy.decode ridge (ridgeSamples n).temperature
    (ridgeSamples n).constrained = .ok ridgeCandidate := by
  have hdecode : Greedy.decode ridge 1 true = .ok ridgeCandidate := by decide +kernel
  exact hdecode

theorem peaks_ridge (n : Nat) :
    Greedy.Peaks ridge (ridgeSamples n).temperature (ridgeSamples n).constrained := by
  have hsequence : ∀ n < 2,
      (takeSteps (Greedy.step ridge (ridge.constraint true)) n Path.start).map (·.sequence)
        = .ok (Sequence.ofChoices (ridgeCandidate.choices.take n)) := by decide +kernel
  have hscores : ∀ n < 2, ridge.scores (Sequence.ofChoices (ridgeCandidate.choices.take n))
      = .ok (ridgeRows.getD n []) := by decide +kernel
  have hpeak : ∀ n < 2, Row.Peak (Row.tempered ((ridge.constraint true).constrain
      (Sequence.ofChoices (ridgeCandidate.choices.take n)) (ridgeRows.getD n [])).row 1)
        (ridgePeaks.getD n (0, 0)).1 (ridgePeaks.getD n (0, 0)).2 := by decide +kernel
  intro n hn path raw hpath hraw
  have hsame := hsequence n hn
  have hpath : takeSteps (Greedy.step ridge (ridge.constraint true)) n Path.start = .ok path :=
    hpath
  rw [hpath, Except.map, Except.ok.injEq] at hsame
  rw [hsame, hscores n hn, Except.ok.injEq] at hraw
  rw [hsame, ← hraw]
  exact ⟨_, _, hpeak n hn⟩

/-- Three samples, each of them the greedy candidate. -/
theorem ridge_samples :
    (0 < (ridgeSamples 3).numSamples ∧ (ridgeSamples 3).topK = 1 ∧
      Greedy.decode ridge (ridgeSamples 3).temperature (ridgeSamples 3).constrained
        = .ok ridgeCandidate ∧
      Greedy.Peaks ridge (ridgeSamples 3).temperature (ridgeSamples 3).constrained) ∧
    ∃ cs, Sample.run ridge (ridgeSamples 3) = .ok cs ∧ cs.length = (ridgeSamples 3).numSamples ∧
      ∀ c ∈ cs, c.choices = ridgeCandidate.choices :=
  ⟨⟨by decide, rfl, ridge_decode 3, peaks_ridge 3⟩,
    Sample.top_one_is_greedy (by decide) rfl (ridge_decode 3) (peaks_ridge 3)⟩

/-- No samples are not an empty list of them: asking for none is refused,
however clear the greedy pass is. -/
theorem ridge_refused :
    ¬ ∀ params : Sample.Params Stark, params.topK = 1 → ∀ c,
      Greedy.decode ridge params.temperature params.constrained = .ok c →
      Greedy.Peaks ridge params.temperature params.constrained →
        ∃ cs, Sample.run ridge params = .ok cs ∧ cs.length = params.numSamples ∧
          ∀ c' ∈ cs, c'.choices = c.choices := by
  intro h
  have hrefused : Sample.run ridge (ridgeSamples 0) = .error (.argument .noSamples) := rfl
  obtain ⟨cs, hrun, -⟩ := h (ridgeSamples 0) rfl ridgeCandidate (ridge_decode 0) (peaks_ridge 0)
  rw [hrefused] at hrun
  cases hrun

end OrderDecoding
