/-
# `Proofs.Contest` — who wins the places of a step

A step of a beam search puts the sums of all paths into one long row, ranks
that, and reads the path and the entry of each place back from its index
there.  What it comes to can be said without the long row.  The extensions
that are not lost enter with their score, the rank of their path and their
entry; they are lined up by the score, then the rank, then the entry
(`Entrant.Precedes`); and as many as there are places lead on, in this
order (`Lineup`).

Three facts carry this.  All rows are of one length, so that an index in the
long row is a rank and an entry, and the lower index is the one with the
lower rank, or with the lower entry of the same rank (`Entrant.ranked`).
What is ranked are sums from zero on, so that places of the ranking are
decided as numbers compare, and never by the sign of a zero (`Path.Solid`).
And nothing lost is ranked before anything that is not, so that to stop at
the first of the lost is to leave out all of them (`takeWhile_open`).
-/
import OrderDecoding.Proofs.Histories
import OrderDecoding.Proofs.Narrowest
import OrderDecoding.Proofs.Width

namespace OrderDecoding

open Score LawfulScore

/-- An extension that competes at a step: the rank of the path and the entry
to extend it by, and the score that it then has. -/
structure Entrant (α : Type) where
  rank : Nat
  index : Nat
  score : α

variable {α : Type} [Score α]

namespace Entrant

/-- What enters extends the path of its rank by an entry of that path's own
row of constrained log-probabilities. -/
def Enters (p : Position α) (c : Constraint) (paths : List (Path α)) (e : Entrant α) : Prop :=
  ∃ path raw x, paths[e.rank]? = some path ∧ p.scores path.sequence = .ok raw ∧
    (c.constrain path.sequence (Row.logSoftmax raw)).row[e.index]? = some x ∧
    e.score = path.score + x

/-- The higher score comes first, then the better path, then the lower
entry. -/
def Precedes (a b : Entrant α) : Prop :=
  b.score < a.score ∨
    a.score = b.score ∧ (a.rank < b.rank ∨ a.rank = b.rank ∧ a.index < b.index)

/-- What an entrant leads to: its path with one choice more. -/
def Leads (p : Position α) (paths : List (Path α)) (e : Entrant α) (path' : Path α) : Prop :=
  ∃ path choice, paths[e.rank]? = some path ∧
    p.choose path.sequence.length e.index = .ok choice ∧ path' = path.extend choice e.score

end Entrant

/-- All that enters and is not lost, in order. -/
structure Lineup (p : Position α) (c : Constraint) (paths : List (Path α))
    (lineup : List (Entrant α)) : Prop where
  mem_iff : ∀ e, e ∈ lineup ↔ e.Enters p c paths ∧ negInf < e.score
  ordered : lineup.Pairwise Entrant.Precedes

theorem Entrant.Precedes.asymm [LawfulScore α] {a b : Entrant α} (h : a.Precedes b) :
    ¬ b.Precedes a := by
  rintro (hlt | ⟨hscore, hafter⟩)
  · rcases h with h | ⟨hscore, -⟩
    · exact not_le_of_lt h (le_of_lt hlt)
    · exact lt_irrefl (hscore ▸ hlt)
  · rcases h with h | ⟨-, h⟩
    · exact lt_irrefl (hscore ▸ h)
    · omega

/-- There is one order only in which they can stand. -/
theorem Lineup.unique [LawfulScore α] {p : Position α} {c : Constraint} {paths : List (Path α)}
    {lineup other : List (Entrant α)} (h : Lineup p c paths lineup)
    (hother : Lineup p c paths other) : other = lineup := by
  have hnodup {es : List (Entrant α)} (hes : es.Pairwise Entrant.Precedes) : es.Nodup :=
    hes.imp fun {a b} hab => by
      rintro rfl
      exact hab.asymm hab
  have hperm : other.Perm lineup :=
    (List.perm_ext_iff_of_nodup (hnodup hother.ordered) (hnodup h.ordered)).mpr fun e =>
      (hother.mem_iff e).trans (h.mem_iff e).symm
  exact hperm.eq_of_pairwise (fun a b _ _ hab hba => absurd hba hab.asymm) hother.ordered h.ordered

namespace Beam

variable {p : Position α} {c : Constraint} {paths : List (Path α)} {rows : List (List α)}

/-! ## One long row -/

theorem length_row {path : Path α} {row : List α} (h : Beam.row p c path = .ok row) :
    row.length = p.vocab.size := by
  obtain ⟨raw, hraw, rfl, -⟩ := row_eq_ok_iff.mp h
  rw [Constraint.length_constrain, Row.length_logSoftmax, Position.length_of_scores hraw]

theorem length_of_mem_zip (hrows : paths.mapM (Beam.row p c) = .ok rows) :
    ∀ pr ∈ paths.zip rows, (extensions pr.1 pr.2).length = p.vocab.size := fun pr hpr => by
  rw [length_extensions, length_row (List.forall₂_zip (forall₂_of_mapM hrows) hpr)]

theorem getElem?_zip_iff (hrows : paths.mapM (Beam.row p c) = .ok rows) {m : Nat}
    {path : Path α} {row : List α} : (paths.zip rows)[m]? = some (path, row) ↔
      paths[m]? = some path ∧ Beam.row p c path = .ok row := by
  obtain ⟨hlength, hrow⟩ := forall₂_iff_getElem?.mp (forall₂_of_mapM hrows)
  rw [List.getElem?_zip_eq_some]
  refine and_congr_right fun hpath => ⟨hrow m path row hpath, fun h => ?_⟩
  obtain ⟨row', hrow'⟩ := exists_getElem? hlength hpath
  rw [hrow', Except.ok.inj ((hrow m path row' hpath hrow').symm.trans h)]

/-- The extension of the path of rank `m` by entry `a`. -/
theorem getElem?_all (hrows : paths.mapM (Beam.row p c) = .ok rows) {m a : Nat} {path : Path α}
    {row : List α} {x : α} (hpath : paths[m]? = some path) (hrow : Beam.row p c path = .ok row)
    (hx : row[a]? = some x) :
    ((paths.zip rows).flatMap fun pr => extensions pr.1 pr.2)[m * p.vocab.size + a]? =
      some { parent := path, index := a, score := path.score + x } := by
  have ha := (List.getElem?_eq_some_iff.mp hx).1
  rw [length_row hrow] at ha
  have hpr := (getElem?_zip_iff hrows).mpr ⟨hpath, hrow⟩
  rw [Row.getElem?_blocks (length_of_mem_zip hrows) hpr ha, getElem?_extensions hx]

/-- What stands at an index of the long row. -/
theorem exists_of_getElem?_all (hrows : paths.mapM (Beam.row p c) = .ok rows) {k : Nat}
    {e : Extension α}
    (he : ((paths.zip rows).flatMap fun pr => extensions pr.1 pr.2)[k]? = some e) :
    paths[k / p.vocab.size]? = some e.parent ∧ e.index = k % p.vocab.size ∧
      ∃ row x, Beam.row p c e.parent = .ok row ∧ row[e.index]? = some x ∧
        e.score = e.parent.score + x := by
  obtain ⟨⟨path, row⟩, hpr, hlt, he⟩ := Row.getElem?_flatMap (length_of_mem_zip hrows) he
  obtain ⟨hpath, hrow⟩ := (getElem?_zip_iff hrows).mp hpr
  have hx := List.getElem?_eq_getElem
    (show k % p.vocab.size < row.length by rwa [length_row hrow])
  dsimp only at he
  rw [getElem?_extensions hx, Option.some.injEq] at he
  subst he
  exact ⟨hpath, rfl, row, _, hrow, hx, rfl⟩

end Beam

/-! ## Sums that are ranked as they compare -/

section

variable [LawfulScore α] [LawfulZero α]

namespace Beam

variable {p : Position α} {c : Constraint} {paths paths' : List (Path α)} {rows : List (List α)}

theorem solid_all (h : ∀ path ∈ paths, path.Solid) (hrows : paths.mapM (Beam.row p c) = .ok rows) :
    ∀ e ∈ (paths.zip rows).flatMap (fun pr => extensions pr.1 pr.2),
      e.score ≤ 0 ∧ Topmost e.score := by
  intro e he
  obtain ⟨path, hpath, row, hrow, he⟩ := (mem_flatMap_extensions hrows).mp he
  obtain ⟨raw, hraw, rfl, -⟩ := row_eq_ok_iff.mp hrow
  obtain ⟨-, x, hx, hscore⟩ := mem_extensions_iff.mp he
  rw [hscore]
  exact (h path hpath).add (nonpos_of_constrained hraw hx)

theorem solid_step {width : Nat} (h : ∀ path ∈ paths, path.Solid)
    (hstep : Beam.step p c width paths = .ok paths') : ∀ path' ∈ paths', path'.Solid := by
  obtain ⟨rows, hrows, hfollow⟩ := step_eq_ok_iff.mp hstep
  intro path' hpath'
  obtain ⟨e, he, hpath'⟩ := exists_of_mem_mapM hfollow hpath'
  obtain ⟨choice, -, hpath'⟩ := bind_eq_ok_iff.mp hpath'
  cases hpath'
  obtain ⟨hnonpos, htop⟩ := solid_all h hrows e (mem_of_mem_survivors he).1
  exact ⟨hnonpos, htop⟩

theorem solid_takeSteps {width n : Nat}
    (h : takeSteps (Beam.step p c width) n [Path.start] = .ok paths) :
    ∀ path ∈ paths, path.Solid :=
  takeSteps_invariant (fun _ (paths : List (Path α)) => ∀ path ∈ paths, path.Solid)
    (fun _ _ _ _ hs hstep => solid_step hs hstep)
    (fun _ hpath => List.mem_singleton.mp hpath ▸ Path.solid_start) h

end Beam

end

/-! ## Entrants -/

namespace Entrant

/-- What competes with the score that stands at an index of the long row. -/
def ranked (size : Nat) (b : α × Nat) : Entrant α :=
  { rank := b.2 / size, index := b.2 % size, score := b.1 }

omit [Score α] in
theorem ranked_block {size m a : Nat} (ha : a < size) (x : α) :
    ranked size (x, m * size + a) = { rank := m, index := a, score := x } := by
  rw [ranked, Row.block_div ha, Nat.mul_add_mod_self_right, Nat.mod_eq_of_lt ha]

/-- Of two indices the lower one is in a block before, or before in the same
block. -/
theorem block_cases {size k k' : Nat} (hlt : k < k') :
    k / size < k' / size ∨ k / size = k' / size ∧ k % size < k' % size := by
  rcases Nat.lt_or_eq_of_le (Nat.div_le_div_right (c := size) (Nat.le_of_lt hlt)) with hdiv | hdiv
  · exact Or.inl hdiv
  · have hk := Nat.div_add_mod k size
    have hk' := Nat.div_add_mod k' size
    rw [← hdiv] at hk'
    exact Or.inr ⟨hdiv, by omega⟩

/-- What ranks higher in the long row precedes. -/
theorem precedes_of_outranks [LawfulScore α] {size : Nat} {b b' : α × Nat} (hb : b.1 ≤ 0)
    (hb' : b'.1 ≤ 0) (htop : Topmost b'.1) (hne : b ≠ b') (h : Row.outranks b b' = true) :
    (ranked size b).Precedes (ranked size b') := by
  obtain ⟨hranks, htie⟩ := Row.outranks_iff.mp h
  by_cases hle : b.1 ≤ b'.1
  · have hscore : b.1 = b'.1 := ranks_antisymm (htop _ hle) hranks
    have hindex : b.2 ≠ b'.2 := fun hindex => hne (Prod.ext hscore hindex)
    exact Or.inr ⟨hscore, block_cases (Nat.lt_of_le_of_ne (htie (htop _ hle)) hindex)⟩
  · exact Or.inl (lt_of_not_le (le_self_left hb') (le_self_left hb) hle)

end Entrant

namespace Beam

variable {p : Position α} {c : Constraint} {paths paths' : List (Path α)} {rows : List (List α)}

/-- The entrants with the scores of a long row, in the order of its
ranking, as far as they are not lost. -/
def lineup (size : Nat) (sums : List α) : List (Entrant α) :=
  ((Row.ranking sums).map (Entrant.ranked size)).filter fun e => !decide (e.score ≤ negInf)

variable [LawfulScore α] [LawfulZero α]

/-- The ranking of the long row lines the entrants up. -/
theorem lineup_of_rows (hsolid : ∀ path ∈ paths, path.Solid)
    (hrows : paths.mapM (Beam.row p c) = .ok rows) :
    Lineup p c paths (lineup p.vocab.size
      (((paths.zip rows).flatMap fun pr => extensions pr.1 pr.2).map (·.score))) := by
  have hsums := solid_all hsolid hrows
  set all := (paths.zip rows).flatMap fun pr => extensions pr.1 pr.2 with hall
  constructor
  case mem_iff =>
    intro e
    rw [lineup, List.mem_filter, List.mem_map, Bool.not_eq_true', decide_eq_false_iff_not]
    constructor
    · rintro ⟨⟨⟨s, k⟩, hb, rfl⟩, hopen⟩
      obtain ⟨e, he, hscore⟩ := exists_of_mem_ranking hb
      have hnum : s ≤ s := le_self_left (hscore ▸ (hsums e (List.mem_of_getElem? he)).1)
      obtain ⟨hpath, hindex, row, x, hrow, hx, hsum⟩ := exists_of_getElem?_all hrows he
      obtain ⟨raw, hraw, rfl, -⟩ := row_eq_ok_iff.mp hrow
      rw [hindex] at hx
      exact ⟨⟨e.parent, raw, x, hpath, hraw, hx, hscore.symm.trans hsum⟩, negInf_lt hnum hopen⟩
    · rintro ⟨⟨path, raw, x, hpath, hraw, hx, hscore⟩, hopen⟩
      obtain ⟨row, -, hrow⟩ := exists_mem_zip (forall₂_of_mapM hrows) (List.mem_of_getElem? hpath)
      obtain ⟨raw', hraw', rfl, -⟩ := row_eq_ok_iff.mp hrow
      obtain rfl : raw = raw' := Except.ok.inj (hraw.symm.trans hraw')
      have hlt : e.index < p.vocab.size := length_row hrow ▸ (List.getElem?_eq_some_iff.mp hx).1
      have hplace := getElem?_scores (getElem?_all hrows hpath hrow hx)
      rw [← hscore] at hplace
      exact ⟨⟨_, Row.mem_ranking.mpr hplace, Entrant.ranked_block hlt e.score⟩,
        not_le_of_lt hopen⟩
  case ordered =>
    have hdistinct : (Row.ranking (all.map (·.score))).Pairwise (· ≠ ·) := Row.nodup_ranking _
    refine List.Pairwise.filter _ (List.pairwise_map.mpr
      (((Row.pairwise_ranking _).and hdistinct).imp_of_mem ?_))
    rintro b b' hb hb' ⟨hout, hne⟩
    obtain ⟨e, he, hscore⟩ := exists_of_mem_ranking hb
    obtain ⟨e', he', hscore'⟩ := exists_of_mem_ranking hb'
    have he := hsums e (List.mem_of_getElem? he)
    have he' := hsums e' (List.mem_of_getElem? he')
    rw [hscore] at he
    rw [hscore'] at he'
    exact Entrant.precedes_of_outranks he.1 he'.1 he'.2 hne hout

/-! ## Steps -/

omit [Score α] [LawfulScore α] [LawfulZero α] in
theorem forall₂_map_filterMap {β γ δ : Type} {R : γ → δ → Prop} {g : β → γ} {f : β → Option δ}
    {l : List β} (h : ∀ b ∈ l, ∃ d, f b = some d ∧ R (g b) d) :
    List.Forall₂ R (l.map g) (l.filterMap f) := by
  induction l with
  | nil => exact .nil
  | cons b rest ih =>
    obtain ⟨d, hd, hR⟩ := h b List.mem_cons_self
    rw [List.map_cons, List.filterMap_cons_some hd]
    exact .cons hR (ih fun b hb => h b (List.mem_cons_of_mem _ hb))

/-- The entrant and the extension are the same. -/
structure Stands (paths : List (Path α)) (e : Entrant α) (x : Extension α) : Prop where
  parent : paths[e.rank]? = some x.parent
  index : e.index = x.index
  score : e.score = x.score

/-- Those that are lined up are the contenders. -/
theorem forall₂_lineup (hsolid : ∀ path ∈ paths, path.Solid)
    (hrows : paths.mapM (Beam.row p c) = .ok rows) : List.Forall₂ (Stands paths)
      (lineup p.vocab.size
        (((paths.zip rows).flatMap fun pr => extensions pr.1 pr.2).map (·.score)))
      (contenders ((paths.zip rows).flatMap fun pr => extensions pr.1 pr.2)) := by
  have hsums := solid_all hsolid hrows
  set all := (paths.zip rows).flatMap fun pr => extensions pr.1 pr.2 with hall
  rw [contenders_eq_filter fun e he => lt_posInf_of_nonpos (hsums e he).1, lineup, ordered]
  refine List.rel_filter (fun e x hstands => ?_) (forall₂_map_filterMap ?_)
  · simp only [hstands.score]
  · intro b hb
    obtain ⟨x, hx, hscore⟩ := exists_of_mem_ranking hb
    obtain ⟨hparent, hindex, -⟩ := exists_of_getElem?_all hrows hx
    exact ⟨x, hx, hparent, hindex.symm, hscore.symm⟩

omit [Score α] [LawfulScore α] [LawfulZero α] in
theorem leads_of_follow {e : Entrant α} {x : Extension α} {path' : Path α}
    (h : Stands paths e x) (hfollow : follow p x = .ok path') : e.Leads p paths path' := by
  obtain ⟨choice, hchoose, hfollow⟩ := bind_eq_ok_iff.mp hfollow
  cases hfollow
  exact ⟨x.parent, choice, h.parent, h.index ▸ hchoose, h.score ▸ rfl⟩

/-- A step follows the first that are lined up, as many as there are
places. -/
theorem exists_lineup {width : Nat} (hsolid : ∀ path ∈ paths, path.Solid)
    (hstep : Beam.step p c width paths = .ok paths') : ∃ lineup, Lineup p c paths lineup ∧
      List.Forall₂ (Entrant.Leads p paths) (lineup.take width) paths' := by
  obtain ⟨rows, hrows, hfollow⟩ := step_eq_ok_iff.mp hstep
  refine ⟨_, lineup_of_rows hsolid hrows, ?_⟩
  have hfirst := List.forall₂_take width (forall₂_lineup hsolid hrows)
  rw [← survivors_eq_take] at hfirst
  exact (forall₂_trans.mp ⟨_, hfirst, forall₂_of_mapM hfollow⟩).imp
    fun e path' ⟨x, hstands, hx⟩ => leads_of_follow hstands hx

/-! ## Runs -/

/-- What holds of the paths after some steps. -/
structure Standing (p : Position α) (steps : Nat) (paths : List (Path α)) : Prop where
  length : ∀ path ∈ paths, path.sequence.length = steps
  /-- Each order is its entry, read for the unit of its step. -/
  read : ∀ path ∈ paths, ∀ (step : Nat) (choice : Choice),
    path.sequence.choices[step]? = some choice → ∃ unit, p.units.areas[step]? = some unit ∧
      p.vocab.orderAt choice.index unit p.units.phase = .ok choice.order
  claimed : ∀ path ∈ paths, ∀ area,
    area ∈ path.sequence.claimed ↔ area ∈ claims path.sequence.choices
  distinct : (paths.map fun path => (candidate path).signature).Nodup
  unmasked : ∀ path ∈ paths, negInf < path.score
  descending : paths.Pairwise fun q q' => q'.score ≤ q.score

omit [LawfulZero α] in
theorem descending_takeSteps {width n : Nat}
    (h : takeSteps (Beam.step p c width) n [Path.start] = .ok paths) :
    paths.Pairwise fun q q' => q'.score ≤ q.score := by
  have hnum : ∀ path ∈ paths, path.score ≤ path.score := fun path hpath =>
    le_self_left (kept_takeSteps h path hpath).nonpos
  have hranks := takeSteps_invariant
    (fun _ (paths : List (Path α)) => paths.Pairwise fun q q' => ranks q'.score q.score = true)
    (fun _ _ _ _ _ hstep => pairwise_step hstep) (List.pairwise_singleton _ _) h
  exact hranks.imp_of_mem fun hq hq' hrank => le_of_ranks (hnum _ hq') (hnum _ hq) hrank

omit [LawfulZero α] in
theorem standing_takeSteps {width n : Nat}
    (h : takeSteps (Beam.step p c width) n [Path.start] = .ok paths) : Standing p n paths := by
  have hkept := kept_takeSteps h
  constructor
  case length => exact fun path hpath => (hkept path hpath).length
  case read =>
    intro path hpath step choice hchoice
    have hchoose := (Path.Held.beam h hpath).choose_eq hchoice
    exact (Position.choose_eq_ok_iff.mp hchoose).2
  case claimed =>
    intro path hpath area
    rw [(Path.Held.beam h hpath).eq_ofChoices, Sequence.choices_ofChoices]
    exact Sequence.mem_claimed_ofChoices
  case distinct => exact nodup_takeSteps h
  case unmasked => exact fun path hpath => (hkept path hpath).unmasked
  case descending => exact descending_takeSteps h

/-- After every step the paths are of one length, each order the reading of
its entry and each claimed area claimed by an order; they differ, none is
lost, and they come best first.  And they are exactly what the first in the
lineup of the step lead to, as many as there are places.  The best of a
search is the first of its paths. -/
theorem steps_follow_the_lineup (p : Position α) (constrained : Bool) (width : Nat) :
    (∀ i paths', takeSteps (Beam.step p (p.constraint constrained) width) (i + 1) [Path.start]
        = .ok paths' → Standing p (i + 1) paths' ∧ ∃ paths lineup,
      takeSteps (Beam.step p (p.constraint constrained) width) i [Path.start] = .ok paths ∧
      (∀ other, Lineup p (p.constraint constrained) paths other ↔ other = lineup) ∧
      paths'.length = min width lineup.length ∧
      List.Forall₂ (Entrant.Leads p paths) (lineup.take width) paths') ∧
    (∀ found, 0 < p.numSteps → Beam.search p width constrained = .ok found → ∃ best rest,
      takeSteps (Beam.step p (p.constraint constrained) width) p.numSteps [Path.start]
        = .ok (best :: rest) ∧
      found.best = candidate best ∧ found.candidates = (best :: rest).map candidate) := by
  refine ⟨fun i paths' h => ⟨standing_takeSteps h, ?_⟩, fun found hunits h => ?_⟩
  · rw [takeSteps_succ] at h
    obtain ⟨paths, hpaths, hstep⟩ := bind_eq_ok_iff.mp h
    obtain ⟨lineup, hlineup, hleads⟩ := exists_lineup (solid_takeSteps hpaths) hstep
    refine ⟨paths, lineup, hpaths, fun other => ⟨hlineup.unique, fun h => h ▸ hlineup⟩, ?_, hleads⟩
    rw [← hleads.length_eq, List.length_take]
  · obtain ⟨-, paths, hpaths, hcandidates, hhead⟩ := (search_eq_ok_iff hunits).mp h
    rw [hcandidates] at hhead
    cases paths with
    | nil => cases hhead
    | cons best rest => exact ⟨best, rest, hpaths, (Option.some.inj hhead).symm, hcandidates⟩

end Beam

/-- Two units that can stay or disband, and it is all the same. -/
def indifferent : Position Stark :=
  Stark.position 2 [Stark.row 11 [(0, 0), (6, 0)], Stark.row 11 [(0, 0), (6, 0)]]

def indifferentCandidate (first second : OrderKind) : Candidate Stark :=
  { choices := [⟨first.index, ⟨first, 0, none⟩⟩, ⟨second.index, ⟨second, 1, none⟩⟩]
    score := (0 : Float), origin := .beam }

/-- With three places the path that stays is extended in both ways, and the
other one only by its lower entry. -/
theorem indifferent_lineup :
    (0 < indifferent.numSteps ∧ Beam.search indifferent 3 true =
      .ok ⟨indifferentCandidate .hold .hold,
        [indifferentCandidate .hold .hold, indifferentCandidate .hold .disband,
          indifferentCandidate .disband .hold]⟩) ∧
    ∃ paths', takeSteps (Beam.step indifferent (indifferent.constraint true) 3) 2 [Path.start]
        = .ok paths' ∧ paths'.length = 3 ∧ Beam.Standing indifferent 2 paths' ∧
      ∃ paths lineup, takeSteps (Beam.step indifferent (indifferent.constraint true) 3) 1
          [Path.start] = .ok paths ∧
        Lineup indifferent (indifferent.constraint true) paths lineup ∧
        List.Forall₂ (Entrant.Leads indifferent paths) (lineup.take 3) paths' := by
  have hunits : 0 < indifferent.numSteps := by decide
  have hsearch : Beam.search indifferent 3 true =
      .ok ⟨indifferentCandidate .hold .hold,
        [indifferentCandidate .hold .hold, indifferentCandidate .hold .disband,
          indifferentCandidate .disband .hold]⟩ := by
    decide +kernel
  obtain ⟨hsteps, hsearches⟩ := Beam.steps_follow_the_lineup indifferent true 3
  obtain ⟨best, rest, hpaths', -, hcandidates⟩ := hsearches _ hunits hsearch
  have hlength := congrArg List.length hcandidates
  rw [List.length_map] at hlength
  obtain ⟨hstanding, paths, lineup, hpaths, hlineup, -, hleads⟩ := hsteps 1 _ hpaths'
  exact ⟨⟨hunits, hsearch⟩, _, hpaths', hlength.symm, hstanding, paths, lineup, hpaths,
    (hlineup lineup).mpr rfl, hleads⟩

end OrderDecoding
