/-
# `Proofs.Sharing` — one row for all paths

Where rows do not depend on what was chosen before (`HistoryFree`), all
paths of a step look at the same log-probabilities, the `shared` row, and
differ only in what is masked of it.  A step of a beam search is then a
matter of the paths' scores and claims alone (`step_of_shares`), and its
extensions are in blocks of one row for each path.
-/
import OrderDecoding.Proofs.Survival

namespace OrderDecoding

open Score LawfulScore

variable {α : Type} [Score α]

/-! ## Rows without a history -/

/-- The row of a step is the same whatever was chosen before. -/
def Position.HistoryFree (p : Position α) : Prop :=
  ∀ step prior prior', p.rowAt step prior = p.rowAt step prior'

theorem Position.historyFree_table {p : Position α} {rows : List (List α)}
    (hscorer : p.scorer = Scorer.table rows) : p.HistoryFree := by
  intro step prior prior'
  unfold Position.rowAt
  rw [hscorer]
  rfl

/-- The log-probabilities that every sequence of a length sees. -/
structure Position.Shares (p : Position α) (step : Nat) (shared : List α) : Prop where
  row : ∀ s : Sequence, s.length = step → ∃ raw, p.scores s = .ok raw ∧ Row.logSoftmax raw = shared
  nonpos : ∀ x ∈ shared, x ≤ 0
  hasMass : Row.hasMass shared = true

/-- A shared row has an entry for each of the vocabulary. -/
theorem Position.Shares.length {p : Position α} {step : Nat} {shared : List α}
    (h : p.Shares step shared) : shared.length = p.vocab.size := by
  -- any sequence of this length will do
  obtain ⟨raw, hraw, rfl⟩ := h.row (Sequence.ofChoices (List.replicate step ⟨0, .hold 0⟩))
    (by rw [Sequence.length_ofChoices, List.length_replicate])
  rw [Row.length_logSoftmax, Position.length_of_scores hraw]

theorem Position.exists_shares [LawfulScore α] {p : Position α} (hfree : p.HistoryFree)
    (hmass : p.AlwaysMass) {step : Nat} (hstep : step < p.numSteps) :
    ∃ shared, p.Shares step shared := by
  -- any sequence of this length has the row of all of them
  obtain ⟨choice, -⟩ := Position.exists_choose hstep
    (show 0 < p.vocab.size by rw [Vocabulary.size_eq]; omega)
  let sample := Sequence.ofChoices (List.replicate step choice)
  have hlength : sample.length = step := by
    rw [Sequence.length_ofChoices, List.length_replicate]
  obtain ⟨raw, hraw, hsome⟩ := hmass sample (hlength ▸ hstep)
  have hvalid := Position.valid_of_scores hraw
  refine ⟨Row.logSoftmax raw, ?_, ?_, Row.hasMass_logSoftmax hvalid hsome⟩
  · intro s hs
    refine ⟨raw, ?_, rfl⟩
    rw [Position.scores, hs, hfree step s.orders sample.orders, ← hraw, Position.scores, hlength]
  · intro x hx
    exact Row.logSoftmax_nonpos hvalid hx

namespace Beam

/-! ## Extensions by one row for all -/

/-- The extensions of paths by one row, masked for each path. -/
def offers (c : Constraint) (shared : List α) (paths : List (Path α)) : List (Extension α) :=
  paths.flatMap fun path => extensions path (c.constrain path.sequence shared).row

theorem offers_append (c : Constraint) (shared : List α) (paths more : List (Path α)) :
    offers c shared (paths ++ more) = offers c shared paths ++ offers c shared more :=
  List.flatMap_append

theorem mem_offers_iff {c : Constraint} {shared : List α} {paths : List (Path α)}
    {e : Extension α} : e ∈ offers c shared paths ↔ e.parent ∈ paths ∧ ∃ x,
      (c.constrain e.parent.sequence shared).row[e.index]? = some x ∧
        e.score = e.parent.score + x := by
  rw [offers, List.mem_flatMap]
  constructor
  · rintro ⟨path, hpath, he⟩
    obtain ⟨rfl, x, hx, hscore⟩ := mem_extensions_iff.mp he
    exact ⟨hpath, x, hx, hscore⟩
  · rintro ⟨hpath, x, hx, hscore⟩
    exact ⟨e.parent, hpath, mem_extensions_iff.mpr ⟨rfl, x, hx, hscore⟩⟩

theorem length_extensions (path : Path α) (row : List α) :
    (extensions path row).length = row.length := by
  rw [extensions, List.length_map, List.length_zipIdx]

/-- The offers are in blocks of one row. -/
theorem length_offer (c : Constraint) (shared : List α) (path : Path α) :
    (extensions path (c.constrain path.sequence shared).row).length = shared.length := by
  rw [length_extensions, Constraint.length_constrain]

theorem length_offers (c : Constraint) (shared : List α) (paths : List (Path α)) :
    (offers c shared paths).length = paths.length * shared.length :=
  Row.length_blocks fun path _ => length_offer c shared path

/-- The extension of path `m` by entry `a`. -/
theorem getElem?_offers {c : Constraint} {shared : List α} {paths : List (Path α)} {m a : Nat}
    {path : Path α} {x : α} (hpath : paths[m]? = some path)
    (hx : (c.constrain path.sequence shared).row[a]? = some x) :
    (offers c shared paths)[m * shared.length + a]? =
      some { parent := path, index := a, score := path.score + x } := by
  have ha : a < shared.length := (Constraint.getElem?_constrain hx).2
  rw [offers, Row.getElem?_blocks (fun path _ => length_offer c shared path) hpath ha,
    getElem?_extensions hx]

/-- Every extension is that of some path by some entry. -/
theorem exists_of_getElem?_offers {c : Constraint} {shared : List α} {paths : List (Path α)}
    {i : Nat} {e : Extension α} (h : (offers c shared paths)[i]? = some e) :
    ∃ m a path x, i = m * shared.length + a ∧ a < shared.length ∧ paths[m]? = some path ∧
      (c.constrain path.sequence shared).row[a]? = some x ∧ e.score = path.score + x := by
  obtain ⟨path, hpath, ha, he⟩ :=
    Row.getElem?_flatMap (fun path _ => length_offer c shared path) h
  have hx := List.getElem?_eq_getElem
    (show i % shared.length < (c.constrain path.sequence shared).row.length by
      rwa [Constraint.length_constrain])
  rw [getElem?_extensions hx, Option.some.injEq] at he
  exact ⟨_, _, path, _, (Nat.div_add_mod' _ _).symm, ha, hpath, hx, he ▸ rfl⟩

/-- Sums of scores that are at most zero. -/
theorem offers_nonpos [LawfulScore α] {c : Constraint} {shared : List α} {paths : List (Path α)}
    (hshared : ∀ x ∈ shared, x ≤ 0) (hpaths : ∀ path ∈ paths, path.score ≤ 0) :
    ∀ e ∈ offers c shared paths, e.score ≤ 0 := by
  intro e he
  obtain ⟨hparent, x, hx, hscore⟩ := mem_offers_iff.mp he
  rw [hscore]
  refine add_nonpos (hpaths _ hparent) ?_
  rcases (Constraint.getElem?_constrain hx).1 with rfl | hx
  · exact le_of_lt negInf_lt_zero
  · exact hshared x (List.mem_of_getElem? hx)

/-- A step of a search whose paths share a row. -/
theorem step_of_shares {p : Position α} {c : Constraint} {width step : Nat} {shared : List α}
    (hshares : p.Shares step shared) {paths : List (Path α)}
    (h : ∀ path ∈ paths, path.sequence.length = step) :
    Beam.step p c width paths = (survivors width (offers c shared paths)).mapM (follow p) := by
  have hrows : p.workers.forkJoin paths (Beam.row p c) =
      .ok (paths.map fun path => (c.constrain path.sequence shared).row) := by
    refine Workers.forkJoin_eq_ok_iff.mpr
      (mapM_of_forall₂ (List.forall₂_map_right_iff.mpr (List.forall₂_same.mpr ?_)))
    intro path hpath
    obtain ⟨raw, hraw, rfl⟩ := hshares.row _ (h path hpath)
    exact row_eq_ok_iff.mpr ⟨raw, hraw, rfl, Constraint.hasMass_constrain hshares.hasMass⟩
  have hall : (paths.zip (paths.map fun path => (c.constrain path.sequence shared).row)).flatMap
      (fun pr => extensions pr.1 pr.2) = offers c shared paths := by
    have hzip := List.zip_map' (f := id) (l := paths)
      (g := fun path => (c.constrain path.sequence shared).row)
    rw [List.map_id] at hzip
    rw [hzip, List.flatMap_map]
    rfl
  unfold Beam.step
  rw [hrows]
  exact congrArg (fun all => (survivors width all).mapM (follow p)) hall

end Beam
end OrderDecoding
