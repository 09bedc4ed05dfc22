/-
# `Proofs.Degenerate` — when there is nothing left to choose

A step at which a valid row leaves nothing to choose is reported as such,
and no other failure looks like it.  For greedy decoding it takes a row
with every score at `-∞`: the constraint does not take all that there is.

A sample looks at the row in the same way before it draws, but it draws
from the row divided by the temperature.  At a temperature below one that
makes scores larger, and where all of them are far below zero it can make
every one of them overflow: the row SINKS, and the sample is at its end
although there is something to choose.  These two are the only ways
(`degenerate_iff_spent`).
-/
import OrderDecoding.Proofs.Causality
import OrderDecoding.Proofs.Drawing
import OrderDecoding.Proofs.Faults

namespace OrderDecoding

open Score LawfulScore

variable {α : Type} [Score α] {p : Position α} {n : Nat}

/-- No scorer's failure is taken for a row without anything to choose. -/
theorem Position.scores_not_degenerate (s : Sequence) :
    FailsOnly (fun e => e ≠ .degenerate n) (p.scores s) := by
  intro e he
  rcases Nat.lt_or_ge s.length p.numSteps with hlt | hge
  · cases (rowAt_eq_error_iff hlt).mp he with
    | scorer _ =>
      intro h
      cases h
    | row _ _ =>
      intro h
      cases h
  · have hge : p.units.length ≤ s.length := hge
    rw [scores, rowAt, if_pos hge] at he
    cases he
    intro h
    cases h

theorem checkTemperature_not_degenerate (temperature : α) :
    FailsOnly (fun e => e ≠ .degenerate n) (checkTemperature temperature) := by
  unfold checkTemperature
  split
  · refine failsOnly_error ?_
    intro h
    cases h
  · exact failsOnly_ok ()

/-! ## Greedy decoding -/

namespace Greedy

/-- Greedy decoding comes, at some step, to a row with every score at
`-∞`. -/
def BlankAt (p : Position α) (temperature : α) (constrained : Bool) (step : Nat) : Prop :=
  checkTemperature temperature = .ok () ∧ step < p.numSteps ∧ ∃ path raw,
    takeSteps (Greedy.step p (p.constraint constrained)) step Path.start = .ok path ∧
    p.scores path.sequence = .ok raw ∧ ∀ x ∈ raw, x = negInf

variable [LawfulScore α]

theorem step_eq_degenerate_iff {c : Constraint} {path : Path α}
    (hlt : path.sequence.length < p.numSteps) :
    Greedy.step p c path = .error (.degenerate n) ↔ n = path.sequence.length ∧
      ∃ raw, p.scores path.sequence = .ok raw ∧ ∀ x ∈ raw, x = negInf := by
  unfold Greedy.step
  rw [bind_eq_error_iff]
  constructor
  · rintro (hscores | ⟨raw, hraw, h⟩)
    · exact absurd rfl (Position.scores_not_degenerate _ _ hscores)
    have hvalid := Position.valid_of_scores hraw
    split at h
    · next hargmax =>
      cases h
      have hconstrained := Constraint.valid_constrain (c := c) (s := path.sequence) hvalid
      rw [Row.argmax_eq_none_iff hconstrained.numbers, Constraint.hasMass_constrain_eq,
        Row.hasMass_eq_false_iff hvalid.numbers] at hargmax
      exact ⟨rfl, raw, hraw, hargmax⟩
    · next index hargmax =>
      obtain ⟨x, hx, -⟩ := Row.argmax_eq_some hargmax
      obtain ⟨choice, hchoose⟩ := Position.exists_choose_constrained hlt hraw hx
      rw [hchoose] at h
      cases h
  · rintro ⟨rfl, raw, hraw, hblank⟩
    refine Or.inr ⟨raw, hraw, ?_⟩
    split
    · rfl
    · next index hargmax =>
      obtain ⟨x, hx, hopen⟩ := Row.argmax_eq_some hargmax
      refine absurd (le_of_eq_of_le ?_ negInf_le_negInf) hopen
      exact (Constraint.getElem?_constrain hx).1.elim id
        fun hx => hblank x (List.mem_of_getElem? hx)

theorem decode_eq_degenerate_iff {temperature : α} {constrained : Bool} {step : Nat} :
    decode p temperature constrained = .error (.degenerate step) ↔
      BlankAt p temperature constrained step := by
  rw [decode_eq_error_iff]
  constructor
  · rintro ⟨k, htemperature | ⟨htemperature, hk, path, hpath, hfail⟩⟩
    · exact absurd rfl (checkTemperature_not_degenerate _ _ htemperature)
    · have hlength := (Greedy.replayed_takeSteps hpath).length
      obtain ⟨rfl, raw, hraw, hblank⟩ := (step_eq_degenerate_iff (hlength ▸ hk)).mp hfail
      rw [hlength]
      exact ⟨htemperature, hk, path, raw, hpath, hraw, hblank⟩
  · rintro ⟨htemperature, hk, path, raw, hpath, hraw, hblank⟩
    have hlength := (Greedy.replayed_takeSteps hpath).length
    refine ⟨step, .step htemperature hk ⟨path, hpath, ?_⟩⟩
    exact (step_eq_degenerate_iff (hlength ▸ hk)).mpr ⟨hlength.symm, raw, hraw, hblank⟩

end Greedy

/-! ## Samples -/

namespace Sample

variable {params : Params α}

/-- A sample cannot go on: every score of its next row is at `-∞`, or is
after the constrained row has been divided by the temperature. -/
def Spent (p : Position α) (params : Params α) (w : Walker α) : Prop :=
  ∃ raw, p.scores w.path.sequence = .ok raw ∧
    ((∀ x ∈ raw, x = negInf) ∨
      Row.Sunk ((p.constraint params.constrained).constrain w.path.sequence raw).row
        params.temperature)

/-- Sample `i`, which does not know of the others, is spent at some step. -/
def SpentAt (p : Position α) (params : Params α) (i step : Nat) : Prop :=
  checkTemperature params.temperature = .ok () ∧ step < p.numSteps ∧
    ∃ w, takeSteps (walk p params) step (walker params i) = .ok w ∧ Spent p params w

variable [LawfulScore α] [LawfulQuotient α]

/-- A draw from a constrained row gives nothing exactly if the row is
spent. -/
theorem draw_constrained_eq_none_iff (ht : params.temperature < posInf)
    (hsize : p.vocab.size < Word.bound) {c : Constraint} {s : Sequence} {raw : List α}
    (hraw : p.scores s = .ok raw) (k : Nat) (g : Generator) :
    (Row.draw (c.constrain s raw).row params.temperature k g).1 = none ↔
      (∀ x ∈ raw, x = negInf) ∨ Row.Sunk (c.constrain s raw).row params.temperature := by
  have hvalid := Position.valid_of_scores hraw
  have hconstrained := Constraint.valid_constrain (c := c) (s := s) hvalid
  have hlength : (c.constrain s raw).row.length < Word.bound := by
    rwa [Constraint.length_constrain, Position.length_of_scores hraw]
  rw [Row.draw_eq_none_iff hconstrained ht hlength, ← Row.hasMass_eq_false_iff hvalid.numbers,
    ← Row.hasMass_eq_false_iff hconstrained.numbers, Constraint.hasMass_constrain_eq]

theorem walk_eq_degenerate_iff (ht : params.temperature < posInf)
    (hsize : p.vocab.size < Word.bound) {w : Walker α}
    (hlt : w.path.sequence.length < p.numSteps) :
    walk p params w = .error (.degenerate n) ↔
      n = w.path.sequence.length ∧ Spent p params w := by
  unfold walk
  rw [bind_eq_error_iff]
  constructor
  · rintro (hscores | ⟨raw, hraw, h⟩)
    · exact absurd rfl (Position.scores_not_degenerate _ _ hscores)
    have hdraws := draw_constrained_eq_none_iff (c := p.constraint params.constrained) ht hsize
      hraw params.topK w.source
    dsimp only at h
    split at h
    · split at h
      · next hdraw =>
        cases h
        exact ⟨rfl, raw, hraw, hdraws.mp (congrArg Prod.fst hdraw)⟩
      · next index source hdraw =>
        obtain ⟨x, hx, -⟩ := Row.draw_eq_some ht hdraw
        obtain ⟨choice, hchoose⟩ := Position.exists_choose_constrained hlt hraw hx
        rw [hchoose] at h
        cases h
    · next hmass =>
      cases h
      rw [Bool.not_eq_true, Constraint.hasMass_constrain_eq,
        Row.hasMass_eq_false_iff (Position.valid_of_scores hraw).numbers] at hmass
      exact ⟨rfl, raw, hraw, Or.inl hmass⟩
  · rintro ⟨rfl, raw, hraw, hspent⟩
    have hnone := (draw_constrained_eq_none_iff (c := p.constraint params.constrained) ht hsize
      hraw params.topK w.source).mpr hspent
    refine Or.inr ⟨raw, hraw, ?_⟩
    dsimp only
    split
    · split
      · rfl
      · next index source hdraw =>
        have hsome := (congrArg Prod.fst hdraw).symm.trans hnone
        cases hsome
    · rfl

theorem fails_alone_degenerate_iff (hsize : p.vocab.size < Word.bound) {i k : Nat} :
    Fails p (params.alone i) k (.degenerate n) ↔ n = k ∧ SpentAt p params i k := by
  rw [fails_alone_iff]
  constructor
  · rintro (⟨htemperature, -⟩ | ⟨htemperature, hk, w, hw, hfail⟩)
    · exact absurd rfl (checkTemperature_not_degenerate _ _ htemperature)
    · have hlength : w.path.sequence.length = k := (length_walks hw).trans (Nat.zero_add k)
      obtain ⟨rfl, hspent⟩ := (walk_eq_degenerate_iff (lt_posInf_of_checkTemperature htemperature)
        hsize (hlength ▸ hk)).mp hfail
      exact ⟨hlength, htemperature, hk, w, hw, hspent⟩
  · rintro ⟨rfl, htemperature, hk, w, hw, hspent⟩
    have hlength : w.path.sequence.length = n := (length_walks hw).trans (Nat.zero_add n)
    refine Or.inr ⟨htemperature, hk, w, hw, ?_⟩
    exact (walk_eq_degenerate_iff (lt_posInf_of_checkTemperature htemperature) hsize
      (hlength ▸ hk)).mpr ⟨hlength.symm, hspent⟩

theorem run_eq_degenerate_iff (hsize : p.vocab.size < Word.bound) {step : Nat} :
    run p params = .error (.degenerate step) ↔
      ∃ i < params.numSamples, SpentAt p params i step ∧
        ∀ j < params.numSamples, ∀ k e, Fails p (params.alone j) k e →
          step < k ∨ step = k ∧
            p.workers.rank params.numSamples i ≤ p.workers.rank params.numSamples j := by
  rcases Nat.eq_zero_or_pos params.numSamples with hnone | hsome
  · rw [run, if_pos hnone]
    constructor
    · intro h
      cases h
    · rintro ⟨i, hi, -⟩
      exact absurd (hnone ▸ hi) (Nat.not_lt_zero i)
  · rw [run_eq_error_iff hsome]
    simp only [fails_iff_first hsome, fails_alone_degenerate_iff hsize]
    constructor
    · rintro ⟨k, i, hi, ⟨rfl, hspent⟩, hleast⟩
      exact ⟨i, hi, hspent, hleast⟩
    · rintro ⟨i, hi, hspent, hleast⟩
      exact ⟨step, i, hi, ⟨rfl, hspent⟩, hleast⟩

end Sample

/-! ## All that is reported as degenerate -/

/-- A draw gives nothing exactly if every score of the row is `-∞`, or is
after the division by the temperature; the latter takes a temperature below
one and scores below zero.  So a call for samples reports a step as
degenerate exactly if one of the samples is spent there, and none fails
before it or comes in before it with another failure; and greedy decoding,
exactly if every score is `-∞`. -/
theorem degenerate_iff_spent (α : Type) [Score α] [LawfulScore α] [LawfulQuotient α] :
    (∀ (row : List α) (temperature : α) (k : Nat) (g : Generator), Row.Valid row →
      temperature < posInf → row.length < Word.bound →
        ((Row.draw row temperature k g).1 = none ↔
          (∀ x ∈ row, x = negInf) ∨ Row.Sunk row temperature)) ∧
    (∀ (row : List α) (temperature : α), Row.Valid row → temperature < posInf →
      Row.Sunk row temperature →
        ¬ 1 ≤ Row.clampTemperature temperature ∧ ∀ x ∈ row, ¬ 0 ≤ x) ∧
    (∀ (p : Position α) (params : Sample.Params α) (step : Nat), p.vocab.size < Word.bound →
      (Sample.run p params = .error (.degenerate step) ↔
        ∃ i < params.numSamples, Sample.SpentAt p params i step ∧
          ∀ j < params.numSamples, ∀ k e, Sample.Fails p (params.alone j) k e →
            step < k ∨ step = k ∧
              p.workers.rank params.numSamples i ≤ p.workers.rank params.numSamples j)) ∧
    ∀ (p : Position α) (temperature : α) (constrained : Bool) (step : Nat),
      Greedy.decode p temperature constrained = .error (.degenerate step) ↔
        Greedy.BlankAt p temperature constrained step := by
  refine ⟨fun row temperature k g hvalid ht hlength => Row.draw_eq_none_iff hvalid ht hlength g,
    fun row temperature hvalid ht hsunk => ⟨hsunk.lt_one hvalid ht, hsunk.neg hvalid ht⟩,
    fun p params step hsize => Sample.run_eq_degenerate_iff hsize,
    fun p temperature constrained step => Greedy.decode_eq_degenerate_iff⟩

/-- One unit, that can stay. -/
def sinkingRow : List Stark := Stark.row 9 [(0, -1e308)]

def sinking : Position Stark := Stark.position 1 [sinkingRow]

def sinkingSamples (temperature : Stark) : Sample.Params Stark :=
  { numSamples := 2, temperature, topK := 0, constrained := true, seed := 0 }

/-- At temperature zero the row sinks: there is nothing to draw, and no
sample, though greedy decoding finds an order, and so do samples at
temperature one. -/
theorem sinking_spent :
    (Row.Valid sinkingRow ∧ sinkingRow.length < Word.bound ∧ (0 : Stark) < posInf ∧
      sinking.vocab.size < Word.bound) ∧
    (Row.hasMass sinkingRow = true ∧ Row.Sunk sinkingRow 0 ∧
      ¬ 1 ≤ Row.clampTemperature (0 : Stark)) ∧
    (Sample.run sinking (sinkingSamples 0) = .error (.degenerate 0) ∧
      ∃ i < 2, Sample.SpentAt sinking (sinkingSamples 0) i 0) ∧
    (∃ c, Greedy.decode sinking 0 true = .ok c) ∧
    ∃ cs, Sample.run sinking (sinkingSamples 1) = .ok cs := by
  have hvalid : ∀ x ∈ sinkingRow, x < posInf := by decide +kernel
  have hlt : (0 : Stark) < posInf := by decide +kernel
  have hmass : Row.hasMass sinkingRow = true := by decide +kernel
  have hnone : (Row.draw sinkingRow 0 0 (Generator.ofSeed 0)).1 = none := by decide +kernel
  have hrun : Sample.run sinking (sinkingSamples 0) = .error (.degenerate 0) := by decide +kernel
  obtain ⟨hdraws, hbelow, hruns, -⟩ := degenerate_iff_spent Stark
  have hopen : ¬ ∀ x ∈ sinkingRow, x = negInf := by decide +kernel
  have hsunk : Row.Sunk sinkingRow 0 :=
    ((hdraws sinkingRow 0 0 _ hvalid hlt (by decide)).mp hnone).resolve_left hopen
  obtain ⟨i, hi, hspent, -⟩ := (hruns sinking (sinkingSamples 0) 0 (by decide)).mp hrun
  have hgreedy : Greedy.decode sinking 0 true = .ok
      { choices := [⟨0, .hold 0⟩], score := (0 : Float), origin := .greedy } := by decide +kernel
  have hwarm : Sample.run sinking (sinkingSamples 1) = .ok (List.replicate 2
      { choices := [⟨0, .hold 0⟩], score := (0 : Float), origin := .sample }) := by decide +kernel
  exact ⟨⟨hvalid, by decide, hlt, by decide⟩,
    ⟨hmass, hsunk, (hbelow sinkingRow 0 hvalid hlt hsunk).1⟩, ⟨hrun, i, hi, hspent⟩,
    ⟨_, hgreedy⟩, _, hwarm⟩

end OrderDecoding
