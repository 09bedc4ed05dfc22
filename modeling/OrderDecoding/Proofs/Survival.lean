/-
# `Proofs.Survival` — a beam search runs out of paths only by overflow

Where every row has something to choose, a search should always have a
path to go on with.  The check for that is made on the row; the filter that
drops extensions looks at SUMS, of the path's score and an entry of the row.
A sum of two scores above `-∞` can be `-∞` all the same, when it is below
the least float, and a step at which every sum of every path is lost in this
way (`Overflowed`) leaves nothing.

That is the only way.  `search_runs_out_iff_overflows` says that the
search succeeds exactly if no step overflows, and that otherwise it breaks
off.  Where nothing is masked no step does: the best entry of a row's
log-probabilities is mild, so it is the mask alone that can leave a row
with nothing but entries large enough to overflow.
-/
import OrderDecoding.Proofs.Reached
import OrderDecoding.Proofs.Stark

namespace OrderDecoding

open Score LawfulScore

variable {α : Type} [Score α]

/-- Every row that can be asked for is valid and has something to
choose. -/
def Position.AlwaysMass (p : Position α) : Prop :=
  ∀ s : Sequence, s.length < p.numSteps →
    ∃ raw, p.scores s = .ok raw ∧ Row.hasMass raw = true

/-- A table with a good row for each unit. -/
theorem Position.alwaysMass_table {p : Position α} {rows : List (List α)}
    (hscorer : p.scorer = Scorer.table rows) (hrows : p.numSteps ≤ rows.length)
    (h : ∀ entry ∈ rows.zipIdx,
      p.checkRow entry.2 entry.1 = .ok () ∧ Row.hasMass entry.1 = true) : p.AlwaysMass := by
  intro s hs
  have hraw := List.getElem?_eq_getElem (Nat.lt_of_lt_of_le hs hrows)
  obtain ⟨hcheck, hmass⟩ := h (rows[s.length], s.length) (List.mem_zipIdx_iff_getElem?.mpr hraw)
  exact ⟨_, Position.rowAt_table hscorer hs hraw hcheck _, hmass⟩

namespace Beam

/-- There are paths, none of them lost, each with a row that has something
to choose, and every sum of a path's score and an entry of its row is
lost. -/
def Overflowed (p : Position α) (c : Constraint) (paths : List (Path α)) : Prop :=
  paths ≠ [] ∧ ∀ path ∈ paths, negInf < path.score ∧
    ∃ row, Beam.row p c path = .ok row ∧ Row.hasMass row = true ∧
      ∀ x ∈ row, path.score + x = negInf

variable {p : Position α} {c : Constraint}

/-! ## The answer of a search -/

/-- The answer of a search comes from the paths that are left after all steps. -/
theorem search_of_takeSteps (hunits : 0 < p.numSteps) {width : Nat} (hwidth : 1 ≤ width)
    (hsize : width ≤ p.vocab.size) {constrained : Bool} {paths : List (Path α)}
    (h : takeSteps (Beam.step p (p.constraint constrained) width) p.numSteps [Path.start]
      = .ok paths) :
    Beam.search p width constrained =
      match paths with
      | [] => .error .outOfPaths
      | best :: rest =>
          .ok { best := candidate best, candidates := (best :: rest).map candidate } := by
  have hall : p.takeAll (Beam.step p { vocab := p.vocab, enabled := constrained } width)
      [Path.start] = .ok paths := h
  unfold Beam.search
  rw [if_neg (by omega), if_neg (by omega)]
  dsimp only
  rw [hall]
  cases paths <;> rfl

/-- Without units it is the empty path. -/
theorem search_of_no_units (hunits : p.numSteps = 0) {width : Nat} (hwidth : 1 ≤ width)
    (hsize : width ≤ p.vocab.size) (constrained : Bool) :
    ∃ found, Beam.search p width constrained = .ok found ∧ found.best = candidate Path.start := by
  unfold Beam.search
  rw [if_neg (by omega), if_pos hunits]
  exact ⟨_, rfl, rfl⟩

/-! ## One step -/

theorem exists_follow {steps : Nat} (hlt : steps < p.numSteps) {path : Path α} {row : List α}
    (h : Kept p c steps path) (hrow : Beam.row p c path = .ok row) {e : Extension α}
    (he : e ∈ extensions path row) : ∃ path', follow p e = .ok path' := by
  obtain ⟨raw, hraw, rfl, -⟩ := row_eq_ok_iff.mp hrow
  obtain ⟨rfl, x, hx, -⟩ := mem_extensions_iff.mp he
  have hindex : e.index < p.vocab.size := by
    rw [← Position.length_of_scores hraw, ← Row.length_logSoftmax raw]
    exact (Constraint.getElem?_constrain hx).2
  obtain ⟨choice, hchoose⟩ := Position.exists_choose (h.length ▸ hlt) hindex
  exact ⟨_, bind_eq_ok_iff.mpr ⟨choice, hchoose, rfl⟩⟩

/-- What survives can be followed. -/
theorem exists_followed {steps : Nat} (hlt : steps < p.numSteps) {paths : List (Path α)}
    {rows : List (List α)} (h : ∀ path ∈ paths, Kept p c steps path)
    (hrows : paths.mapM (Beam.row p c) = .ok rows) (width : Nat) : ∃ paths',
      (survivors width ((paths.zip rows).flatMap fun pr => extensions pr.1 pr.2)).mapM (follow p)
        = .ok paths' := by
  refine exists_mapM fun e he => ?_
  obtain ⟨path, hpath, row, hrow, he⟩ :=
    (mem_flatMap_extensions hrows).mp (mem_of_mem_survivors he).1
  exact exists_follow hlt (h path hpath) hrow he

variable [LawfulScore α]

/-- Where the scorer leaves something to choose, so does the row of a
path. -/
theorem exists_row {path : Path α}
    (hmass : ∃ raw, p.scores path.sequence = .ok raw ∧ Row.hasMass raw = true) :
    ∃ row, Beam.row p c path = .ok row := by
  obtain ⟨raw, hraw, hsome⟩ := hmass
  have hlog := Row.hasMass_logSoftmax (Position.valid_of_scores hraw) hsome
  exact ⟨_, row_eq_ok_iff.mpr ⟨raw, hraw, rfl, Constraint.hasMass_constrain hlog⟩⟩

/-- Under the constraint, too, log-probabilities are at most zero. -/
theorem nonpos_of_constrained {s : Sequence} {raw : List α} (hraw : p.scores s = .ok raw)
    {index : Nat} {x : α} (hx : (c.constrain s (Row.logSoftmax raw)).row[index]? = some x) :
    x ≤ 0 := by
  rcases (Constraint.getElem?_constrain hx).1 with rfl | hx
  · exact le_of_lt negInf_lt_zero
  · exact Row.logSoftmax_nonpos (Position.valid_of_scores hraw) (List.mem_of_getElem? hx)

/-- The sums of kept paths and their rows can be scores. -/
theorem score_lt_posInf {steps : Nat} {path : Path α} {row : List α} (h : Kept p c steps path)
    (hrow : Beam.row p c path = .ok row) {e : Extension α} (he : e ∈ extensions path row) :
    e.score < posInf := by
  obtain ⟨raw, hraw, rfl, -⟩ := row_eq_ok_iff.mp hrow
  obtain ⟨rfl, x, hx, hscore⟩ := mem_extensions_iff.mp he
  rw [hscore]
  exact lt_posInf_of_nonpos (add_nonpos h.nonpos (nonpos_of_constrained hraw hx))

/-- And so can all sums of a step. -/
theorem all_lt_posInf {steps : Nat} {paths : List (Path α)} {rows : List (List α)}
    (h : ∀ path ∈ paths, Kept p c steps path) (hrows : paths.mapM (Beam.row p c) = .ok rows) :
    ∀ e ∈ (paths.zip rows).flatMap (fun pr => extensions pr.1 pr.2), e.score < posInf := by
  intro e he
  obtain ⟨path, hpath, row, hrow, he⟩ := (mem_flatMap_extensions hrows).mp he
  exact score_lt_posInf (h path hpath) hrow he

/-- The sums of a step are all lost exactly if it overflows. -/
theorem masked_iff_overflowed {steps : Nat} {paths : List (Path α)} {rows : List (List α)}
    (h : ∀ path ∈ paths, Kept p c steps path) (hrows : paths.mapM (Beam.row p c) = .ok rows) :
    (∀ e ∈ (paths.zip rows).flatMap (fun pr => extensions pr.1 pr.2), e.score ≤ negInf) ↔
      paths = [] ∨ Overflowed p c paths := by
  constructor
  · intro hmasked
    by_cases hpaths : paths = []
    · exact Or.inl hpaths
    refine Or.inr ⟨hpaths, ?_⟩
    intro path hpath
    obtain ⟨row, -, hrow⟩ := exists_mem_zip (forall₂_of_mapM hrows) hpath
    obtain ⟨-, -, -, hsome⟩ := row_eq_ok_iff.mp hrow
    refine ⟨(h path hpath).unmasked, row, hrow, hsome, ?_⟩
    intro x hx
    obtain ⟨index, hindex⟩ := List.mem_iff_getElem?.mp hx
    have he : (⟨path, index, path.score + x⟩ : Extension α) ∈ extensions path row :=
      mem_extensions_iff.mpr ⟨rfl, x, hindex, rfl⟩
    exact eq_negInf (hmasked _ ((mem_flatMap_extensions hrows).mpr ⟨path, hpath, row, hrow, he⟩))
  · rintro (rfl | ⟨-, hover⟩) e he
    · cases he
    · obtain ⟨path, hpath, row, hrow, he⟩ := (mem_flatMap_extensions hrows).mp he
      obtain ⟨-, row', hrow', -, hlost⟩ := hover path hpath
      obtain rfl : row = row' := Except.ok.inj (hrow.symm.trans hrow')
      obtain ⟨-, x, hx, hscore⟩ := mem_extensions_iff.mp he
      rw [hscore, hlost x (List.mem_of_getElem? hx)]
      exact negInf_le_negInf

/-- A step comes to nothing only from nothing or by overflow. -/
theorem step_eq_nil_iff {width steps : Nat} (hwidth : 0 < width) {paths paths' : List (Path α)}
    (h : ∀ path ∈ paths, Kept p c steps path) (hstep : Beam.step p c width paths = .ok paths') :
    paths' = [] ↔ paths = [] ∨ Overflowed p c paths := by
  obtain ⟨rows, hrows, hfollow⟩ := step_eq_ok_iff.mp hstep
  have hvalid := all_lt_posInf h hrows
  set all := (paths.zip rows).flatMap fun pr => extensions pr.1 pr.2
  have hlength := (forall₂_of_mapM hfollow).length_eq
  calc paths' = [] ↔ survivors width all = [] := by
        rw [← List.length_eq_zero_iff, ← hlength, List.length_eq_zero_iff]
    _ ↔ ∀ e ∈ all, e.score ≤ negInf := survivors_eq_nil_iff hwidth hvalid
    _ ↔ paths = [] ∨ Overflowed p c paths := masked_iff_overflowed h hrows

/-- Where rows have something to choose a step does not fail. -/
theorem exists_step (hmass : p.AlwaysMass) (width : Nat) {steps : Nat} (hlt : steps < p.numSteps)
    {paths : List (Path α)} (h : ∀ path ∈ paths, Kept p c steps path) :
    ∃ paths', Beam.step p c width paths = .ok paths' := by
  have hrow : ∀ path ∈ paths, ∃ row, Beam.row p c path = .ok row := by
    intro path hpath
    exact exists_row (hmass path.sequence ((h path hpath).length ▸ hlt))
  obtain ⟨rows, hrows⟩ := exists_mapM hrow
  obtain ⟨paths', hfollow⟩ := exists_followed hlt h hrows width
  exact ⟨paths', step_eq_ok_iff.mpr ⟨rows, hrows, hfollow⟩⟩

/-- There are never more paths than places. -/
theorem length_step_le {width : Nat} {paths paths' : List (Path α)}
    (h : Beam.step p c width paths = .ok paths') : paths'.length ≤ width := by
  obtain ⟨rows, -, hfollow⟩ := step_eq_ok_iff.mp h
  exact (forall₂_of_mapM hfollow).length_eq ▸ length_survivors_le width _

theorem length_takeSteps_le {width n : Nat} (hwidth : 1 ≤ width) {paths : List (Path α)}
    (h : takeSteps (Beam.step p c width) n [Path.start] = .ok paths) : paths.length ≤ width :=
  takeSteps_invariant (fun _ (paths : List (Path α)) => paths.length ≤ width)
    (fun _ _ _ _ _ hstep => length_step_le hstep)
    (show ([Path.start] : List (Path α)).length ≤ width from hwidth) h

/-- Where nothing is masked no step overflows: the best log-probability of
a row is mild. -/
theorem not_overflowed_of_open (hopen : c.enabled = false ∨ p.units.phase = .build)
    (paths : List (Path α)) {steps : Nat} (h : ∀ path ∈ paths, Kept p c steps path) :
    ¬ Overflowed p c paths := by
  rintro ⟨hne, hover⟩
  obtain ⟨path, hpath⟩ := List.exists_mem_of_ne_nil paths hne
  obtain ⟨hunmasked, row, hrow, hmass, hlost⟩ := hover path hpath
  obtain ⟨raw, hraw, rfl, -⟩ := row_eq_ok_iff.mp hrow
  rw [(h path hpath).reached.constrain_eq_self hopen] at hmass hlost
  have hvalid := Position.valid_of_scores hraw
  obtain ⟨i, y, hy, hmild⟩ := Row.exists_mild_logSoftmax hvalid hmass
  have hlt := hmild.negInf_lt_add hunmasked (h path hpath).nonpos
  rw [hlost y (List.mem_of_getElem? hy)] at hlt
  exact lt_irrefl hlt

/-! ## The whole search -/

/-- The step from the paths after `i` steps overflows. -/
def OverflowsAt (p : Position α) (c : Constraint) (width i : Nat) : Prop :=
  ∃ paths, takeSteps (Beam.step p c width) i [Path.start] = .ok paths ∧ Overflowed p c paths

theorem not_overflowsAt_of_open (hopen : c.enabled = false ∨ p.units.phase = .build)
    {width i : Nat} : ¬ OverflowsAt p c width i := by
  rintro ⟨paths, hpaths, hover⟩
  exact not_overflowed_of_open hopen paths (kept_takeSteps hpaths) hover

/-- No step fails, and none leaves more paths than there are places. -/
theorem exists_takeSteps (hmass : p.AlwaysMass) {width : Nat} (hwidth : 0 < width) {n : Nat}
    (hn : n ≤ p.numSteps) :
    ∃ paths, takeSteps (Beam.step p c width) n [Path.start] = .ok paths ∧
      paths.length ≤ width := by
  obtain ⟨paths, hpaths, -⟩ := takeSteps_total (n := n)
    (fun steps (paths : List (Path α)) => ∀ path ∈ paths, Kept p c steps path)
    (fun steps paths hlt hkept => by
      obtain ⟨paths', hstep⟩ := exists_step hmass width (by omega) hkept
      exact ⟨paths', hstep, kept_step hkept hstep⟩)
    (fun path hpath => List.mem_singleton.mp hpath ▸ kept_start p c)
  exact ⟨paths, hpaths, length_takeSteps_le hwidth hpaths⟩

/-- Nothing is left exactly if a step before has overflowed. -/
theorem eq_nil_iff_overflowsAt {width : Nat} (hwidth : 0 < width) {n : Nat} {paths : List (Path α)}
    (h : takeSteps (Beam.step p c width) n [Path.start] = .ok paths) :
    paths = [] ↔ ∃ i < n, OverflowsAt p c width i := by
  induction n generalizing paths with
  | zero =>
    cases h
    exact ⟨nofun, fun ⟨i, hi, _⟩ => absurd hi (Nat.not_lt_zero i)⟩
  | succ n ih =>
    rw [takeSteps_succ] at h
    obtain ⟨earlier, hearlier, hstep⟩ := bind_eq_ok_iff.mp h
    rw [step_eq_nil_iff hwidth (kept_takeSteps hearlier) hstep, ih hearlier]
    constructor
    · rintro (⟨i, hi, hover⟩ | hover)
      · exact ⟨i, Nat.lt_succ_of_lt hi, hover⟩
      · exact ⟨n, Nat.lt_succ_self n, earlier, hearlier, hover⟩
    · rintro ⟨i, hi, hover⟩
      rcases Nat.lt_or_eq_of_le (Nat.le_of_lt_succ hi) with hlt | rfl
      · exact Or.inl ⟨i, hlt, hover⟩
      · obtain ⟨paths', hpaths', hover⟩ := hover
        obtain rfl : earlier = paths' := Except.ok.inj (hearlier.symm.trans hpaths')
        exact Or.inr hover

/-- Where all rows have something to choose, a search leaves no step
undone and no place doubly filled; it finds candidates unless a step
overflows, breaks off if one does, and none does where nothing is
masked. -/
theorem search_runs_out_iff_overflows (p : Position α) (hmass : p.AlwaysMass)
    (hunits : 0 < p.numSteps) {width : Nat} (hwidth : 1 ≤ width) (hsize : width ≤ p.vocab.size)
    (constrained : Bool) :
    (∀ n ≤ p.numSteps, ∃ paths,
      takeSteps (Beam.step p (p.constraint constrained) width) n [Path.start] = .ok paths ∧
        paths.length ≤ width ∧
        (paths = [] ↔ ∃ i < n, OverflowsAt p (p.constraint constrained) width i)) ∧
    ((∃ found, Beam.search p width constrained = .ok found ∧
        1 ≤ found.candidates.length ∧ found.candidates.length ≤ width) ↔
      ¬ ∃ i < p.numSteps, OverflowsAt p (p.constraint constrained) width i) ∧
    (Beam.search p width constrained = .error .outOfPaths ↔
      ∃ i < p.numSteps, OverflowsAt p (p.constraint constrained) width i) ∧
    (constrained = false ∨ p.units.phase = .build →
      ¬ ∃ i < p.numSteps, OverflowsAt p (p.constraint constrained) width i) := by
  obtain ⟨paths, hpaths, hlength⟩ :=
    exists_takeSteps (c := p.constraint constrained) hmass hwidth (Nat.le_refl p.numSteps)
  have hnil := eq_nil_iff_overflowsAt hwidth hpaths
  have hsearch := search_of_takeSteps hunits hwidth hsize hpaths
  refine ⟨fun n hn => ?_, ?_, ?_, ?_⟩
  · obtain ⟨earlier, hearlier, hle⟩ :=
      exists_takeSteps (c := p.constraint constrained) hmass hwidth hn
    exact ⟨earlier, hearlier, hle, eq_nil_iff_overflowsAt hwidth hearlier⟩
  · rw [← hnil, hsearch]
    cases paths with
    | nil => simp
    | cons best rest =>
      refine ⟨fun _ => List.cons_ne_nil _ _, fun _ => ⟨_, rfl, Nat.le_add_left 1 _, ?_⟩⟩
      simpa using hlength
  · rw [← hnil, hsearch]
    cases paths with
    | nil => simp
    | cons best rest => simp
  · rintro hopen ⟨i, -, hover⟩
    exact not_overflowsAt_of_open hopen hover

end Beam

/-- Three units that would all go to one area.  Anything else is all but as
bad as a score can be. -/
def steep : Position Stark :=
  Stark.position 3
    [Stark.row 13 [(10, 0)], Stark.filled 13 (-1e308) [(10, 0)], Stark.filled 13 (-1e308) [(10, 0)]]

theorem alwaysMass_steep : steep.AlwaysMass :=
  Position.alwaysMass_table rfl (by decide) (by decide +kernel)

/-- The second unit is sent elsewhere at the cost of `-1e308`, and then the
third cannot be sent anywhere: two such scores overflow. -/
theorem steep_runs_out :
    (steep.AlwaysMass ∧ 0 < steep.numSteps ∧ 1 ≤ steep.vocab.size) ∧
    Beam.search steep 1 true = .error .outOfPaths ∧
    (∃ i < steep.numSteps, Beam.OverflowsAt steep (steep.constraint true) 1 i) ∧
    ∃ found, Beam.search steep 1 false = .ok found ∧ found.candidates.length ≤ 1 := by
  have hsearch : Beam.search steep 1 true = .error .outOfPaths := by decide +kernel
  obtain ⟨-, -, hout, -⟩ := Beam.search_runs_out_iff_overflows steep alwaysMass_steep
    (by decide) (Nat.le_refl 1) (by decide) true
  obtain ⟨-, hok, -, hfree⟩ := Beam.search_runs_out_iff_overflows steep alwaysMass_steep
    (by decide) (Nat.le_refl 1) (by decide) false
  obtain ⟨found, hfound, -, hle⟩ := hok.mpr (hfree (Or.inl rfl))
  exact ⟨⟨alwaysMass_steep, by decide, by decide⟩, hsearch, hout.mp hsearch, found, hfound, hle⟩

end OrderDecoding
