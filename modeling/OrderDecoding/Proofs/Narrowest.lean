/-
# `Proofs.Narrowest` — a beam search with one place is greedy decoding

With one place a beam search, too, takes the best entry at every step, but
it is led there in another way.  A greedy pass compares the scores of a
row as they are and takes the first of the largest.  The search adds each
log-probability to the score of its path, ranks the SUMS in the total
order, and drops what is masked.

What can come between them is arithmetic: sums that fall together, or get
lost.  Where sums and scores are `Alike` no comparison tells them apart, and
neither does the mask (`alike_constrain`): the one place goes to the entry
that the pass takes (`best_of_first`), a step fails where the pass fails
(`step_one`), and so on through the whole run (`search_one_eq_decode`).
-/
import OrderDecoding.Proofs.Relaxing
import OrderDecoding.Proofs.Survival

namespace OrderDecoding

open Score LawfulScore

variable {α : Type} [Score α]

namespace Row

variable {row sums raw : List α}

/-! ## Rows that compare alike -/

/-- Two rows whose entries compare among themselves in the same way, and are
masked in the same places. -/
structure Alike (row sums : List α) : Prop where
  length : sums.length = row.length
  le_iff : ∀ e ∈ row.zip sums, ∀ e' ∈ row.zip sums, e.2 ≤ e'.2 ↔ e.1 ≤ e'.1
  masked_iff : ∀ e ∈ row.zip sums, e.2 = negInf ↔ e.1 = negInf

omit [Score α] in
theorem mem_zip {x x' : α} {i : Nat} (hx : row[i]? = some x) (hx' : sums[i]? = some x') :
    (x, x') ∈ row.zip sums :=
  List.mem_of_getElem? (List.getElem?_zip_eq_some.mpr ⟨hx, hx'⟩)

variable [LawfulScore α]

/-- The one place in a row alike goes to the first of the largest. -/
theorem best_of_first {x x' : α} {i : Nat} (h : First row x i) (halike : Alike row sums)
    (hx' : sums[i]? = some x') (htop : Topmost x') : best sums 1 = [(x', i)] := by
  have houtranks : ∀ b ∈ ranking sums, outranks (x', i) b = true := by
    rintro ⟨y', j⟩ hb
    have hy' := mem_ranking.mp hb
    obtain ⟨y, hy⟩ := exists_getElem? halike.length hy'
    have hle := halike.le_iff _ (mem_zip hy hy') _ (mem_zip h.entry hx')
    have hge := halike.le_iff _ (mem_zip h.entry hx') _ (mem_zip hy hy')
    have hyx' := hle.mpr (h.le j y hy)
    refine outranks_iff.mpr ⟨htop _ hyx', fun hranks => h.before j y hy (hge.mp ?_)⟩
    exact le_of_ranks (le_self_right hyx') (le_self_left hyx') hranks
  have hplace : place sums (x', i) = 0 :=
    List.countP_eq_zero.mpr fun b hb => by simp [houtranks b hb]
  have hhead := getElem?_place (e := (x', i)) hx'
  rw [hplace, ← List.head?_eq_getElem?] at hhead
  rw [best_eq_take, List.take_one, hhead]
  rfl

/-- Sums that are alike lose nothing. -/
theorem Alike.not_lost {score : α} (hscore : score < posInf)
    (h : Alike raw ((logSoftmax raw).map (score + ·))) (i : Nat) : ¬ Lost raw i := by
  rintro ⟨⟨x, hx, hopen⟩, hlost⟩
  have hsum : ((logSoftmax raw).map (score + ·))[i]? = some negInf := by
    rw [List.getElem?_map, hlost, Option.map_some, add_negInf hscore]
  have hmasked : x = negInf := (h.masked_iff _ (mem_zip hx hsum)).mp rfl
  exact lt_irrefl (hmasked ▸ hopen)

end Row

/-! ## Under the constraint -/

namespace Constraint

variable {c : Constraint} {s : Sequence} {row sums raw : List α}

theorem map_mask {f : α → α} (hf : f negInf = negInf) :
    (c.mask s row).map f = c.mask s (row.map f) := by
  refine List.ext_getElem? fun i => ?_
  rw [List.getElem?_map, getElem?_mask, getElem?_mask, List.length_map, List.getElem?_map]
  split
  · cases row[i]? <;> simp [hf]
  · rfl

variable [LawfulScore α]

/-- Masking keeps rows alike. -/
theorem alike_mask (h : Row.Alike row sums) (hrow : Row.Valid row) (hsums : Row.Valid sums) :
    Row.Alike (c.mask s row) (c.mask s sums) := by
  have hentry : ∀ e ∈ (c.mask s row).zip (c.mask s sums),
      e = (negInf, negInf) ∨ e ∈ row.zip sums := by
    rintro ⟨x, x'⟩ he
    obtain ⟨i, hi⟩ := List.mem_iff_getElem?.mp he
    obtain ⟨hx, hx'⟩ := List.getElem?_zip_eq_some.mp hi
    rw [getElem?_mask] at hx hx'
    rw [h.length] at hx'
    by_cases htarget : i ∈ c.targets s row.length
    · rw [if_pos htarget] at hx hx'
      obtain ⟨-, -, rfl⟩ := Option.map_eq_some_iff.mp hx
      obtain ⟨-, -, rfl⟩ := Option.map_eq_some_iff.mp hx'
      exact Or.inl rfl
    · rw [if_neg htarget] at hx hx'
      exact Or.inr (Row.mem_zip hx hx')
  have hnum : ∀ e ∈ row.zip sums, e.1 ≤ e.1 ∧ e.2 ≤ e.2 := fun e he =>
    ⟨self_le_of_lt_posInf (hrow e.1 (List.of_mem_zip he).1),
      self_le_of_lt_posInf (hsums e.2 (List.of_mem_zip he).2)⟩
  refine ⟨by rw [length_mask, length_mask, h.length], fun e he e' he' => ?_, fun e he => ?_⟩
  · rcases hentry e he with rfl | he <;> rcases hentry e' he' with rfl | he'
    · exact Iff.rfl
    · exact iff_of_true (negInf_le (hnum e' he').2) (negInf_le (hnum e' he').1)
    · have hmasked := h.masked_iff e he
      exact ⟨fun hle => le_of_eq_of_le (hmasked.mp (eq_negInf hle)) negInf_le_negInf,
        fun hle => le_of_eq_of_le (hmasked.mpr (eq_negInf hle)) negInf_le_negInf⟩
    · exact h.le_iff e he e' he'
  · rcases hentry e he with rfl | he
    · exact Iff.rfl
    · exact h.masked_iff e he

/-- Scores that their sums are alike to are constrained in the same way as
their log-probabilities. -/
theorem alike_constrain (hvalid : Row.Valid raw) {score : α} (hscore : score ≤ 0)
    (h : Row.Alike raw ((Row.logSoftmax raw).map (score + ·))) :
    Row.Alike (c.constrain s raw).row
      ((c.constrain s (Row.logSoftmax raw)).row.map (score + ·)) := by
  have hpos := lt_posInf_of_nonpos hscore
  have hflag : (c.constrain s (Row.logSoftmax raw)).relaxed = (c.constrain s raw).relaxed := by
    refine Bool.eq_iff_iff.mpr ((relaxed_logSoftmax_iff hvalid).trans (or_iff_left ?_))
    rintro ⟨-, -, i, -, hlost⟩
    exact h.not_lost hpos i hlost
  rw [row_constrain, row_constrain, hflag]
  split
  · exact h
  · rw [map_mask (add_negInf hpos)]
    refine alike_mask h hvalid ?_
    intro x hx
    obtain ⟨y, hy, rfl⟩ := List.mem_map.mp hx
    exact lt_posInf_of_nonpos (add_nonpos hscore (Row.logSoftmax_nonpos hvalid hy))

end Constraint

/-! ## One step -/

/-- A path whose score can be added to. -/
structure Path.Solid (path : Path α) : Prop where
  nonpos : path.score ≤ 0
  topmost : Topmost path.score

section

variable [LawfulScore α] [LawfulZero α]

/-- Adding to it keeps it so. -/
theorem Path.Solid.add {path : Path α} (h : path.Solid) {x : α} (hx : x ≤ 0) :
    path.score + x ≤ 0 ∧ Topmost (path.score + x) :=
  ⟨add_nonpos h.nonpos hx, LawfulZero.topmost_add h.topmost (lt_posInf_of_nonpos h.nonpos)
    (lt_posInf_of_nonpos hx)⟩

theorem Path.solid_start : (Path.start : Path α).Solid := ⟨zero_le_zero, LawfulZero.topmost_zero⟩

end

/-- The scores of a path's next unit compare as their sums with its own score
do. -/
def Path.Faithful (p : Position α) (path : Path α) : Prop :=
  ∀ raw, p.scores path.sequence = .ok raw →
    Row.Alike raw ((Row.logSoftmax raw).map (path.score + ·))

variable {p : Position α} {c : Constraint} {path : Path α}

theorem Greedy.step_of_scores {raw : List α} (hraw : p.scores path.sequence = .ok raw) :
    Greedy.step p c path =
      match Row.argmax (c.constrain path.sequence raw).row with
      | none => .error (.degenerate path.sequence.length)
      | some index => (p.choose path.sequence.length index).map fun choice =>
          path.extend choice (path.score + Row.logProb raw index) := by
  unfold Greedy.step
  rw [hraw]
  rfl

namespace Beam

variable {row : List α}

theorem row_of_scores {raw : List α} (hraw : p.scores path.sequence = .ok raw) :
    Beam.row p c path =
      if Row.hasMass (c.constrain path.sequence (Row.logSoftmax raw)).row then
        .ok (c.constrain path.sequence (Row.logSoftmax raw)).row
      else .error (.degenerate path.sequence.length) := by
  unfold Beam.row
  rw [hraw]
  rfl

/-- A step from a single path. -/
theorem step_singleton (p : Position α) (c : Constraint) (width : Nat) (path : Path α) :
    Beam.step p c width [path] =
      Beam.row p c path >>= fun row => (survivors width (extensions path row)).mapM (follow p) := by
  unfold Beam.step
  rw [Workers.forkJoin_singleton]
  cases Beam.row p c path with
  | error e => rfl
  | ok row =>
    change (survivors width (extensions path row ++ [])).mapM (follow p) = _
    rw [List.append_nil]
    rfl

omit [Score α] in
theorem mapM_follow_singleton (p : Position α) (e : Extension α) :
    [e].mapM (follow p) = (p.choose e.parent.sequence.length e.index).map fun choice =>
      [e.parent.extend choice e.score] := by
  rw [List.mapM_cons, List.mapM_nil, follow]
  cases p.choose e.parent.sequence.length e.index <;> rfl

variable [LawfulScore α]

/-- The one place goes to the first of the largest scores. -/
theorem survivors_one {scores : List α} {x y : α} {i : Nat} (hfirst : Row.First scores x i)
    (halike : Row.Alike scores (row.map (path.score + ·))) (hy : row[i]? = some y)
    (htop : Topmost (path.score + y)) :
    survivors 1 (extensions path row) =
      [{ parent := path, index := i, score := path.score + y }] := by
  have hsum : (row.map (path.score + ·))[i]? = some (path.score + y) := by
    rw [List.getElem?_map, hy]
    rfl
  have hopen : ¬ path.score + y ≤ negInf := by
    intro hle
    have hmasked := halike.masked_iff _ (Row.mem_zip hfirst.entry hsum)
    exact hfirst.ne_negInf (hmasked.mp (eq_negInf hle))
  rw [survivors, scores_extensions, Row.topK, Row.best_of_first hfirst halike hsum htop,
    List.map_singleton, List.filterMap_cons_some (getElem?_extensions hy), List.filterMap_nil,
    List.takeWhile_cons_of_pos (by simpa using hopen), List.takeWhile_nil]

variable [LawfulZero α]

/-- Under the constraint, too, and then the entry adds its log-probability. -/
theorem survivors_constrained (hsolid : path.Solid) (hfaithful : path.Faithful p) {raw : List α}
    (hraw : p.scores path.sequence = .ok raw) {x : α} {i : Nat}
    (hfirst : Row.First (c.constrain path.sequence raw).row x i) :
    survivors 1 (extensions path (c.constrain path.sequence (Row.logSoftmax raw)).row) =
      [{ parent := path, index := i, score := path.score + Row.logProb raw i }] := by
  have hpos := lt_posInf_of_nonpos hsolid.nonpos
  have halike := Constraint.alike_constrain (c := c) (s := path.sequence)
    (Position.valid_of_scores hraw) hsolid.nonpos (hfaithful raw hraw)
  obtain ⟨y, hy⟩ : ∃ y, (c.constrain path.sequence (Row.logSoftmax raw)).row[i]? = some y := by
    refine exists_getElem? ?_ hfirst.entry
    rw [Constraint.length_constrain, Constraint.length_constrain, Row.length_logSoftmax]
  have hopen : y ≠ negInf := by
    rintro rfl
    have hsum : ((c.constrain path.sequence (Row.logSoftmax raw)).row.map (path.score + ·))[i]?
        = some negInf := by
      rw [List.getElem?_map, hy, Option.map_some, add_negInf hpos]
    exact hfirst.ne_negInf ((halike.masked_iff _ (Row.mem_zip hfirst.entry hsum)).mp rfl)
  rw [Constraint.logProb_of_constrained hy hopen]
  exact survivors_one hfirst halike hy (hsolid.add (nonpos_of_constrained hraw hy)).2

/-- A step with one place is a greedy step, and fails as it does. -/
theorem step_one (hsolid : path.Solid) (hfaithful : path.Faithful p) :
    Beam.step p c 1 [path] = (Greedy.step p c path).map fun path' => [path'] := by
  rw [step_singleton]
  cases hraw : p.scores path.sequence with
  | error e =>
    unfold Greedy.step Beam.row
    rw [hraw]
    rfl
  | ok raw =>
    have hvalid := Position.valid_of_scores hraw
    have hmass : Row.hasMass (c.constrain path.sequence (Row.logSoftmax raw)).row
        = Row.hasMass (c.constrain path.sequence raw).row := by
      rw [Constraint.hasMass_constrain_eq, Constraint.hasMass_constrain_eq,
        Row.hasMass_logSoftmax_eq hvalid]
    rw [row_of_scores hraw, Greedy.step_of_scores hraw, hmass]
    rcases Row.argmax_cases (Constraint.valid_constrain hvalid).numbers
      with ⟨hnone, hempty⟩ | ⟨x, i, hsome, hfirst⟩
    · rw [hnone, hempty]
      rfl
    · rw [hsome, hfirst.hasMass, if_pos rfl]
      change (survivors 1 (extensions path _)).mapM (follow p) =
        Except.map _ (Except.map _ (p.choose path.sequence.length i))
      rw [survivors_constrained hsolid hfaithful hraw hfirst, mapM_follow_singleton]
      cases p.choose path.sequence.length i <;> rfl

end Beam

/-! ## The whole search -/

namespace Greedy

/-- Every path that a pass comes through is faithful. -/
def Faithful (p : Position α) (c : Constraint) : Prop :=
  ∀ n path, takeSteps (Greedy.step p c) n Path.start = .ok path → path.Faithful p

variable [LawfulScore α] [LawfulZero α]

/-- A step keeps the score of a path one that can be added to. -/
theorem solid_step {path' : Path α} (hsolid : path.Solid)
    (hstep : Greedy.step p c path = .ok path') : path'.Solid := by
  obtain ⟨raw, index, choice, hraw, -, -, rfl⟩ := step_eq_ok_iff.mp hstep
  obtain ⟨hnonpos, htop⟩ :=
    hsolid.add (Row.logProb_nonpos (Position.valid_of_scores hraw) index)
  exact ⟨hnonpos, htop⟩

omit [LawfulScore α] [LawfulZero α] in
/-- With a table only the scores of the pass are left to compute. -/
theorem faithful_table {rows : List (List α)} (hscorer : p.scorer = Scorer.table rows)
    (h : ∀ n < p.numSteps, ∃ raw score, rows[n]? = some raw ∧ p.checkRow n raw = .ok () ∧
      (takeSteps (Greedy.step p c) n Path.start).map (·.score) = .ok score ∧
      Row.Alike raw ((Row.logSoftmax raw).map (score + ·))) : Faithful p c := by
  intro n path hpath raw hraw
  have hlength := (replayed_takeSteps hpath).length
  have hlt := Position.lt_of_scores hraw
  rw [hlength] at hlt
  obtain ⟨raw', score, hrow, hcheck, hscore, halike⟩ := h n hlt
  have hsame := Position.rowAt_table hscorer hlt hrow hcheck path.sequence.orders
  rw [Position.scores, hlength, hsame] at hraw
  rw [hpath] at hscore
  cases hraw
  cases hscore
  exact halike

theorem solid_takeSteps {n : Nat} (h : takeSteps (Greedy.step p c) n Path.start = .ok path) :
    path.Solid :=
  takeSteps_invariant (fun _ (path : Path α) => path.Solid)
    (fun _ _ _ _ hsolid hstep => solid_step hsolid hstep) Path.solid_start h

end Greedy

namespace Beam

variable [LawfulScore α] [LawfulZero α]

/-- A search with one place comes along the path of the greedy pass. -/
theorem takeSteps_one (hfaithful : Greedy.Faithful p c) (n : Nat) :
    takeSteps (Beam.step p c 1) n [Path.start] =
      (takeSteps (Greedy.step p c) n Path.start).map fun path => [path] := by
  induction n with
  | zero => rfl
  | succ n ih =>
    rw [takeSteps_succ, takeSteps_succ, ih]
    cases hpath : takeSteps (Greedy.step p c) n Path.start with
    | error e => rfl
    | ok path => exact step_one (Greedy.solid_takeSteps hpath) (hfaithful n path hpath)

omit [LawfulZero α] in
theorem checkTemperature_of_isFinite {temperature : α} (h : isFinite temperature = true) :
    checkTemperature temperature = .ok () := by
  obtain ⟨hlow, hhigh⟩ := Row.isFinite_iff.mp h
  have hscore : noScore? temperature = none := Position.noScore?_eq_none_iff.mpr hhigh
  unfold checkTemperature nonFinite?
  rw [hscore, if_neg (not_le_of_lt hlow)]
  rfl

/-- Where every path of a greedy pass is faithful, a beam search with one
place gives what the pass gives: the same failure, or a single candidate
with the same choices and the same score. -/
theorem search_one_eq_decode (p : Position α) {temperature : α}
    (hfinite : isFinite temperature = true) (constrained : Bool)
    (hfaithful : Greedy.Faithful p (p.constraint constrained)) :
    Beam.search p 1 constrained =
      (Greedy.decode p temperature constrained).map fun candidate =>
        { best := { candidate with origin := .beam }
          candidates := [{ candidate with origin := .beam }] } := by
  have hone : ¬ (1 = 0 ∨ p.vocab.size < 1) := by
    have := p.vocab.one_le_size
    omega
  have hrun := takeSteps_one hfaithful p.numSteps
  unfold Position.constraint at hrun
  unfold Beam.search Greedy.decode Position.takeAll
  rw [if_neg hone, checkTemperature_of_isFinite hfinite]
  dsimp only
  rw [hrun]
  split
  · next hnone =>
    rw [hnone]
    rfl
  · cases takeSteps (Greedy.step p { vocab := p.vocab, enabled := constrained }) p.numSteps
      Path.start <;> rfl

end Beam

/-- Two units that would both go to one area; the first of them would go to
the other just as well. -/
def level : Position Stark :=
  Stark.position 2
    [Stark.row 11 [(9, 0), (10, 0)], Stark.row 11 [(9, 0), (10, -100), (0, -200)]]

/-- Of the two best entries both take the first, and then, with that masked,
both take the second best. -/
theorem level_search_one_eq_decode :
    (isFinite (1 : Stark) = true ∧
      Greedy.Faithful level (level.constraint true)) ∧
    Beam.search level 1 true = (Greedy.decode level 1 true).map (fun candidate =>
      { best := { candidate with origin := .beam }
        candidates := [{ candidate with origin := .beam }] }) ∧
    Greedy.decode level 1 true =
      .ok { choices := [⟨9, .move 0 0⟩, ⟨10, .move 1 1⟩], score := (-100 : Float),
            origin := .greedy } := by
  have hfaithful : Greedy.Faithful level (level.constraint true) := by
    refine Greedy.faithful_table rfl fun n hn => ?_
    match n, hn with
    | 0, _ =>
      refine ⟨Stark.row 11 [(9, 0), (10, 0)], 0, rfl, ?_, ?_, ⟨?_, ?_, ?_⟩⟩ <;> decide +kernel
    | 1, _ =>
      refine ⟨Stark.row 11 [(9, 0), (10, -100), (0, -200)], 0, rfl, ?_, ?_, ⟨?_, ?_, ?_⟩⟩ <;>
        decide +kernel
  have hfinite : isFinite (1 : Stark) = true := by decide +kernel
  exact ⟨⟨hfinite, hfaithful⟩, Beam.search_one_eq_decode level hfinite true hfaithful,
    by decide +kernel⟩

end OrderDecoding
