/-
# `Proofs.Exactness` — a beam search that drops nothing is exact

The paths that a search could take at all, with as many places as it
likes, are the LEGAL ones: each extends a legal path by an entry that the
constraint leaves, and its score is not lost.  One step from all legal paths
of some length leads to all that are longer by one, best first, cut to the
width (`exists_next`).  So as long as there are no more of them than places
nothing is cut (`exists_legal_paths`), and a cut at the last step only takes
away the worst.  What comes out are the best of all legal paths
(`BestOf`).

With as many places as the vocabulary has entries this covers one unit and
two.  There the search always finds a path, because the best first choice is
mild and the second row has something to choose.
-/
import Mathlib.Data.Set.Card
import OrderDecoding.Proofs.Frontier
import OrderDecoding.Proofs.Rescoring
import OrderDecoding.Proofs.Width

namespace OrderDecoding

open Score LawfulScore

namespace Beam

variable {α : Type} [Score α]

/-- The empty path is legal, and so is a legal path extended by an entry of
its row, if the sum of their scores is above `-∞`.  The row is that of the
log-probabilities after the path, under the constraint. -/
inductive Legal (p : Position α) (c : Constraint) : Path α → Prop
  | start : Legal p c Path.start
  | extend {path : Path α} {raw : List α} {index : Nat} {x : α} {choice : Choice} :
      Legal p c path →
      path.sequence.length < p.numSteps →
      p.scores path.sequence = .ok raw →
      (c.constrain path.sequence (Row.logSoftmax raw)).row[index]? = some x →
      negInf < path.score + x →
      p.choose path.sequence.length index = .ok choice →
      Legal p c (path.extend choice (path.score + x))

/-- The legal sequences of entries of some length. -/
def legalAt (p : Position α) (c : Constraint) (length : Nat) : Set (List Nat) :=
  {s | ∃ path, Legal p c path ∧ path.sequence.length = length ∧ pathIndices path = s}

/-- After a legal path there is a valid row with something to choose, while
there are units. -/
def LegalMass (p : Position α) (c : Constraint) : Prop :=
  ∀ path, Legal p c path → path.sequence.length < p.numSteps →
    ∃ raw, p.scores path.sequence = .ok raw ∧ Row.hasMass raw = true

variable [LawfulScore α] {p : Position α} {c : Constraint}

/-! ## Legal paths -/

/-- A row has something to choose if a sum with one of its entries is not
lost. -/
theorem row_eq_ok_of_sum {steps : Nat} {path : Path α} (h : Kept p c steps path) {raw : List α}
    (hraw : p.scores path.sequence = .ok raw) {index : Nat} {x : α}
    (hx : (c.constrain path.sequence (Row.logSoftmax raw)).row[index]? = some x)
    (hopen : negInf < path.score + x) :
    Beam.row p c path = .ok (c.constrain path.sequence (Row.logSoftmax raw)).row := by
  have hxopen : negInf < x := by
    refine negInf_lt (le_self_left (nonpos_of_constrained hraw hx)) fun hle => ?_
    rw [eq_negInf hle, add_negInf (lt_posInf_of_nonpos h.nonpos)] at hopen
    exact lt_irrefl hopen
  exact row_eq_ok_iff.mpr ⟨raw, hraw, rfl, Row.hasMass_iff.mpr ⟨index, x, hx, hxopen⟩⟩

/-- A legal path is one that a search keeps. -/
theorem Legal.kept {path : Path α} (h : Legal p c path) : Kept p c path.sequence.length path := by
  induction h with
  | start => exact kept_start p c
  | @extend path raw index x choice _ _ hraw hx hopen hchoose ih =>
    have he : (⟨path, index, path.score + x⟩ : Extension α) ∈ extensions path _ :=
      mem_extensions_iff.mpr ⟨rfl, x, hx, rfl⟩
    have hfollow : follow p (⟨path, index, path.score + x⟩ : Extension α)
        = .ok (path.extend choice (path.score + x)) := bind_eq_ok_iff.mpr ⟨choice, hchoose, rfl⟩
    have hlength : (path.extend choice (path.score + x)).sequence.length
        = path.sequence.length + 1 := Sequence.length_push _ _
    rw [hlength]
    exact kept_follow ih (row_eq_ok_of_sum ih hraw hx hopen) he (not_le_of_lt hopen) hfollow

omit [LawfulScore α] in
theorem Legal.eq_start {path : Path α} (h : Legal p c path) (hlength : path.sequence.length = 0) :
    path = Path.start := by
  cases h with
  | start => rfl
  | extend =>
    rw [Path.extend, Sequence.length_push] at hlength
    cases hlength

/-- A legal path of more than no entries follows an extension of a legal
path. -/
theorem legal_succ_iff {n : Nat} (hn : n < p.numSteps) {path' : Path α} :
    (Legal p c path' ∧ path'.sequence.length = n + 1) ↔
      ∃ path, (Legal p c path ∧ path.sequence.length = n) ∧ ∃ row, Beam.row p c path = .ok row ∧
        ∃ e ∈ extensions path row, ¬ e.score ≤ negInf ∧ follow p e = .ok path' := by
  constructor
  · rintro ⟨h, hlength⟩
    cases h with
    | start => cases hlength
    | @extend path raw index x choice hpath hlt hraw hx hopen hchoose =>
      rw [Path.extend, Sequence.length_push, Nat.add_right_cancel_iff] at hlength
      exact ⟨path, ⟨hpath, hlength⟩, _, row_eq_ok_of_sum hpath.kept hraw hx hopen,
        ⟨path, index, path.score + x⟩, mem_extensions_iff.mpr ⟨rfl, x, hx, rfl⟩,
        not_le_of_lt hopen, bind_eq_ok_iff.mpr ⟨choice, hchoose, rfl⟩⟩
  · rintro ⟨path, ⟨hpath, hlength⟩, row, hrow, e, he, hopen, hfollow⟩
    obtain ⟨raw, hraw, rfl, -⟩ := row_eq_ok_iff.mp hrow
    have hnum := self_le_of_lt_posInf (score_lt_posInf hpath.kept hrow he)
    obtain ⟨rfl, x, hx, hscore⟩ := mem_extensions_iff.mp he
    obtain ⟨choice, hchoose, hfollow⟩ := bind_eq_ok_iff.mp hfollow
    cases hfollow
    have hopen := negInf_lt hnum hopen
    rw [hscore] at hopen ⊢
    refine ⟨.extend hpath (hlength ▸ hn) hraw hx hopen hchoose, ?_⟩
    rw [Path.extend, Sequence.length_push, hlength]

/-! ## All legal paths -/

/-- All legal paths of some length, each of them once and best first. -/
structure Exhausts (p : Position α) (c : Constraint) (length : Nat) (paths : List (Path α)) :
    Prop where
  mem_iff : ∀ path, path ∈ paths ↔ Legal p c path ∧ path.sequence.length = length
  nodup : (paths.map pathIndices).Nodup
  descending : paths.Pairwise fun path path' => path'.score ≤ path.score

omit [LawfulScore α] in
theorem Exhausts.encard {n : Nat} {paths : List (Path α)} (h : Exhausts p c n paths) :
    (legalAt p c n).encard = paths.length := by
  have hset : legalAt p c n = ((paths.map pathIndices).toFinset : Set (List Nat)) := by
    ext s
    rw [List.coe_toFinset, Set.mem_ofPred_eq, List.mem_map]
    refine exists_congr fun path => ?_
    rw [h.mem_iff, and_assoc]
  rw [hset, Set.encard_coe_eq_coe_finsetCard, List.toFinset_card_of_nodup h.nodup, List.length_map]

theorem Exhausts.kept {n : Nat} {paths : List (Path α)} (h : Exhausts p c n paths) :
    ∀ path ∈ paths, Kept p c n path := by
  intro path hpath
  obtain ⟨hlegal, rfl⟩ := (h.mem_iff path).mp hpath
  exact hlegal.kept

omit [LawfulScore α] in
theorem exhausts_start (p : Position α) (c : Constraint) :
    Exhausts p c 0 [(Path.start : Path α)] where
  mem_iff path := by
    rw [List.mem_singleton]
    refine ⟨?_, fun h => h.1.eq_start h.2⟩
    rintro rfl
    exact ⟨.start, rfl⟩
  nodup := List.nodup_singleton _
  descending := List.pairwise_singleton _ _

/-- What is not masked of the extensions of all legal paths leads to all
that are longer by one. -/
theorem exhausts_followed {n : Nat} (hn : n < p.numSteps) {paths next : List (Path α)}
    {rows : List (List α)} (h : Exhausts p c n paths) (hrows : paths.mapM (Beam.row p c) = .ok rows)
    (hnext : (contenders ((paths.zip rows).flatMap fun pr => extensions pr.1 pr.2)).mapM (follow p)
      = .ok next) : Exhausts p c (n + 1) next := by
  have hvalid := all_lt_posInf h.kept hrows
  constructor
  case mem_iff =>
    intro path'
    rw [mem_mapM_iff hnext, legal_succ_iff hn]
    constructor
    · rintro ⟨e, he, hfollow⟩
      obtain ⟨hmem, hopen⟩ := (mem_contenders_iff hvalid).mp he
      obtain ⟨path, hpath, row, hrow, he⟩ := (mem_flatMap_extensions hrows).mp hmem
      exact ⟨path, (h.mem_iff path).mp hpath, row, hrow, e, he, hopen, hfollow⟩
    · rintro ⟨path, hpath, row, hrow, e, he, hopen, hfollow⟩
      have hmem := (mem_flatMap_extensions hrows).mpr
        ⟨path, (h.mem_iff path).mpr hpath, row, hrow, he⟩
      exact ⟨e, (mem_contenders_iff hvalid).mpr ⟨hmem, hopen⟩, hfollow⟩
  case nodup =>
    rw [map_eq_of_mapM (fun _ _ => pathIndices_of_follow) hnext, contenders_eq_survivors]
    exact nodup_survivors _ (nodup_flatMap_extensions rows h.nodup)
  case descending =>
    have hdescending := descending_contenders hvalid
    rw [← List.pairwise_map (f := Extension.score) (R := fun x y => y ≤ x),
      ← scores_of_follow hnext, List.pairwise_map] at hdescending
    exact hdescending

/-- From all legal paths a step goes on to all that are longer by one, as
far as there are places. -/
theorem exists_next (hmass : LegalMass p c) {n : Nat} (hn : n < p.numSteps)
    {paths : List (Path α)} (h : Exhausts p c n paths) : ∃ next, Exhausts p c (n + 1) next ∧
      ∀ width, Beam.step p c width paths = .ok (next.take width) := by
  have hrow : ∀ path ∈ paths, ∃ row, Beam.row p c path = .ok row := by
    intro path hpath
    obtain ⟨hlegal, hlength⟩ := (h.mem_iff path).mp hpath
    exact exists_row (hmass path hlegal (hlength ▸ hn))
  obtain ⟨rows, hrows⟩ := exists_mapM hrow
  -- with places for all extensions everything that is not masked survives
  obtain ⟨next, hnext⟩ := exists_followed hn h.kept hrows
    ((paths.zip rows).flatMap fun pr => extensions pr.1 pr.2).length
  rw [← contenders_eq_survivors] at hnext
  refine ⟨next, exhausts_followed hn h hrows hnext, fun width => ?_⟩
  refine step_eq_ok_iff.mpr ⟨rows, hrows, ?_⟩
  rw [survivors_eq_take]
  exact mapM_of_forall₂ (List.forall₂_take width (forall₂_of_mapM hnext))

/-- A search with room for all legal paths before the last step has the best
of those after it. -/
theorem exists_legal_paths (hmass : LegalMass p c) {width : Nat} (hwidth : 1 ≤ width) {n : Nat}
    (hn : n ≤ p.numSteps) (hroom : ∀ i < n, (legalAt p c i).encard ≤ width) :
    ∃ paths, Exhausts p c n paths ∧
      takeSteps (Beam.step p c width) n [Path.start] = .ok (paths.take width) := by
  induction n with
  | zero =>
    refine ⟨_, exhausts_start p c, ?_⟩
    rw [List.take_of_length_le (show ([Path.start] : List (Path α)).length ≤ width from hwidth)]
    rfl
  | succ n ih =>
    obtain ⟨paths, hpaths, hrun⟩ :=
      ih (Nat.le_of_succ_le hn) fun i hi => hroom i (Nat.lt_succ_of_lt hi)
    have hlength : paths.length ≤ width := by
      have hle := hroom n (Nat.lt_succ_self n)
      rw [hpaths.encard] at hle
      exact_mod_cast hle
    rw [List.take_of_length_le hlength] at hrun
    obtain ⟨next, hnext, hstep⟩ := exists_next hmass hn hpaths
    refine ⟨next, hnext, ?_⟩
    rw [takeSteps_succ, hrun]
    exact hstep width

/-- A search that always has a place free has dropped nothing. -/
theorem exhausts_of_free (hmass : LegalMass p c) {width n : Nat} (hn : n ≤ p.numSteps)
    {count : Nat → Nat} (hfree : ∀ i ≤ n, count i < width ∧
      (takeSteps (Beam.step p c width) i [Path.start]).map List.length = .ok (count i)) :
    ∃ paths, Exhausts p c n paths ∧
      takeSteps (Beam.step p c width) n [Path.start] = .ok paths := by
  induction n with
  | zero => exact ⟨_, exhausts_start p c, rfl⟩
  | succ n ih =>
    obtain ⟨paths, hpaths, hrun⟩ :=
      ih (Nat.le_of_succ_le hn) fun i hi => hfree i (Nat.le_succ_of_le hi)
    obtain ⟨next, hnext, hstep⟩ := exists_next hmass hn hpaths
    have hlast : takeSteps (Beam.step p c width) (n + 1) [Path.start]
        = .ok (next.take width) := by
      rw [takeSteps_succ, hrun]
      exact hstep width
    obtain ⟨hlt, hcount⟩ := hfree (n + 1) (Nat.le_refl _)
    rw [hlast] at hcount
    have hlength : (next.take width).length = count (n + 1) := Except.ok.inj hcount
    rw [List.length_take] at hlength
    rw [List.take_of_length_le (by omega)] at hlast
    exact ⟨next, hnext, hlast⟩

/-- So its paths are counted. -/
theorem encard_legalAt_of_free (hmass : LegalMass p c) {width n : Nat} (hn : n ≤ p.numSteps)
    {count : Nat → Nat} (hfree : ∀ i ≤ n, count i < width ∧
      (takeSteps (Beam.step p c width) i [Path.start]).map List.length = .ok (count i)) :
    (legalAt p c n).encard = count n := by
  obtain ⟨paths, hpaths, hrun⟩ := exhausts_of_free hmass hn hfree
  have hcount := (hfree n (Nat.le_refl n)).2
  rw [hrun] at hcount
  rw [hpaths.encard, Except.ok.inj hcount]

/-- The candidates are those of the best legal paths through all units, as
many as there are places for. -/
structure BestOf (p : Position α) (c : Constraint) (width : Nat) (candidates : List (Candidate α)) :
    Prop where
  legal : ∀ d ∈ candidates, ∃ path, Legal p c path ∧ path.sequence.length = p.numSteps ∧
    d = candidate path
  distinct : (candidates.map Candidate.signature).Nodup
  descending : candidates.Pairwise fun d d' => d'.score ≤ d.score
  length : (candidates.length : ℕ∞) = min (width : ℕ∞) (legalAt p c p.numSteps).encard
  /-- What was left out is no better. -/
  left_out : ∀ path, Legal p c path → path.sequence.length = p.numSteps →
    candidate path ∈ candidates ∨ ∀ d ∈ candidates, path.score ≤ d.score

omit [LawfulScore α] in
theorem bestOf_take (width : Nat) {paths : List (Path α)} (h : Exhausts p c p.numSteps paths) :
    BestOf p c width ((paths.take width).map candidate) where
  legal d hd := by
    obtain ⟨path, hpath, rfl⟩ := List.mem_map.mp hd
    obtain ⟨hlegal, hlength⟩ := (h.mem_iff path).mp (List.mem_of_mem_take hpath)
    exact ⟨path, hlegal, hlength, rfl⟩
  distinct := by
    rw [List.map_map]
    exact ((List.take_sublist width paths).map _).nodup h.nodup
  descending := List.pairwise_map.mpr (h.descending.sublist (List.take_sublist width paths))
  length := by
    rw [h.encard, List.length_map, List.length_take]
    exact (Nat.mono_cast (α := ℕ∞)).map_min
  left_out path hlegal hlength := by
    have hmem := (h.mem_iff path).mpr ⟨hlegal, hlength⟩
    have hsplit := h.descending
    rw [← List.take_append_drop width paths] at hmem hsplit
    rcases List.mem_append.mp hmem with hkept | hcut
    · exact Or.inl (List.mem_map.mpr ⟨path, hkept, rfl⟩)
    · refine Or.inr fun d hd => ?_
      obtain ⟨path', hpath', rfl⟩ := List.mem_map.mp hd
      exact (List.pairwise_append.mp hsplit).2.2 path' hpath' path hcut

/-- The first of the best is a best one. -/
theorem BestOf.le_best {width : Nat} {candidates : List (Candidate α)} {best : Candidate α}
    (h : BestOf p c width candidates) (hbest : candidates.head? = some best)
    {path : Path α} (hlegal : Legal p c path) (hlength : path.sequence.length = p.numSteps) :
    path.score ≤ best.score := by
  obtain ⟨rest, rfl⟩ := List.head?_eq_some_iff.mp hbest
  rcases h.left_out path hlegal hlength with hmem | hle
  · rcases List.mem_cons.mp hmem with hbest | hrest
    · rw [← hbest]
      exact le_self_left hlegal.kept.nonpos
    · exact (List.pairwise_cons.mp h.descending).1 _ hrest
  · exact hle _ List.mem_cons_self

/-- A search with room for all legal paths returns the best of them. -/
theorem exists_search_of_room {constrained : Bool} (hmass : LegalMass p (p.constraint constrained))
    (hunits : 0 < p.numSteps) {width : Nat} (hsize : width ≤ p.vocab.size)
    (hroom : ∀ i < p.numSteps, (legalAt p (p.constraint constrained) i).encard ≤ width)
    (hsome : (legalAt p (p.constraint constrained) p.numSteps).Nonempty) :
    ∃ found, Beam.search p width constrained = .ok found ∧
      BestOf p (p.constraint constrained) width found.candidates := by
  have hwidth : 1 ≤ width := by
    have hle := hroom 0 hunits
    rw [(exhausts_start p _).encard] at hle
    exact_mod_cast hle
  obtain ⟨paths, hpaths, hrun⟩ := exists_legal_paths hmass hwidth (Nat.le_refl _) hroom
  have hbest := bestOf_take width hpaths
  obtain ⟨s, path, hlegal, hlength, -⟩ := hsome
  have hmem := (hpaths.mem_iff path).mpr ⟨hlegal, hlength⟩
  cases hkept : paths.take width with
  | nil =>
    rw [List.take_eq_nil_iff] at hkept
    rcases hkept with rfl | rfl
    · cases hwidth
    · cases hmem
  | cons best rest =>
    rw [hkept] at hrun hbest
    exact ⟨⟨candidate best, (best :: rest).map candidate⟩,
      (search_eq_ok_iff hunits).mpr ⟨⟨hwidth, hsize⟩, _, hrun, rfl, rfl⟩, hbest⟩

/-! ## One unit and two -/

omit [LawfulScore α] in
/-- A legal path of one entry has one of the vocabulary. -/
theorem encard_legalAt_one_le (p : Position α) (c : Constraint) :
    (legalAt p c 1).encard ≤ p.vocab.size := by
  have hsubset : legalAt p c 1 ⊆
      (((List.range p.vocab.size).map fun index => [index]).toFinset : Set (List Nat)) := by
    rintro s ⟨path, hlegal, hlength, rfl⟩
    rw [List.coe_toFinset, Set.mem_ofPred_eq, List.mem_map]
    cases hlegal with
    | start => cases hlength
    | @extend path raw index x choice hlegal _ _ _ _ hchoose =>
      rw [Path.extend, Sequence.length_push, Nat.add_eq_right] at hlength
      rw [hlegal.eq_start hlength] at hchoose ⊢
      refine ⟨index, List.mem_range.mpr (Position.lt_size_of_choose hchoose), ?_⟩
      rw [pathIndices, Path.extend, Sequence.indices_push, Position.index_of_choose hchoose]
      rfl
  refine (Set.encard_le_encard hsubset).trans ?_
  rw [Set.encard_coe_eq_coe_finsetCard]
  have hcard := List.toFinset_card_le ((List.range p.vocab.size).map fun index => [index])
  rw [List.length_map, List.length_range] at hcard
  exact_mod_cast hcard

/-- A first choice can be mild, and then nothing that follows is lost. -/
theorem exists_legal_one (hmass : LegalMass p c) (hunits : 0 < p.numSteps)
    (hadd : Std.Commutative fun x y : α => x + y) : ∃ path, Legal p c path ∧
      path.sequence.length = 1 ∧ ∀ x : α, negInf < x → x ≤ 0 → negInf < path.score + x := by
  obtain ⟨raw, hraw, hsome⟩ := hmass Path.start .start hunits
  have hvalid := Position.valid_of_scores hraw
  obtain ⟨index, y, hy, hmild⟩ :=
    Row.exists_mild_logSoftmax hvalid (Row.hasMass_logSoftmax hvalid hsome)
  have hnum := le_self_left hmild.nonpos
  have hzero : y ≤ 0 + y := le_zero_add hnum
  have hx : (c.constrain (Path.start : Path α).sequence (Row.logSoftmax raw)).row[index]?
      = some y := by
    rw [Constraint.constrain_eq_self (Or.inr rfl)]
    exact hy
  have hindex : index < p.vocab.size := by
    rw [← Position.length_of_scores hraw, ← Row.length_logSoftmax raw]
    exact (List.getElem?_eq_some_iff.mp hy).1
  obtain ⟨choice, hchoose⟩ := Position.exists_choose (p := p) hunits hindex
  refine ⟨_, .extend .start hunits hraw hx (lt_of_lt_of_le hmild.unmasked hzero) hchoose, rfl, ?_⟩
  intro x hopen hnonpos
  have hcomm : x + y = y + x := hadd.comm x y
  have hle : y + x ≤ 0 + y + x := add_le_add hzero (le_self_left hnonpos)
    (lt_posInf_of_nonpos (add_nonpos zero_le_zero hmild.nonpos)) (lt_posInf_of_nonpos hnonpos)
  exact lt_of_lt_of_le (hcomm ▸ hmild.negInf_lt_add hopen hnonpos) hle

/-- Through at most two units there is always a legal path. -/
theorem nonempty_legalAt_of_le_two (hmass : LegalMass p c) (hunits : p.numSteps ≤ 2)
    (hadd : Std.Commutative fun x y : α => x + y) : (legalAt p c p.numSteps).Nonempty := by
  rcases Nat.eq_zero_or_pos p.numSteps with hnone | hsome
  · exact ⟨[], Path.start, .start, hnone.symm, rfl⟩
  obtain ⟨path, hlegal, hlength, hsafe⟩ := exists_legal_one hmass hsome hadd
  rcases Nat.lt_or_ge 1 p.numSteps with htwo | hone
  · obtain ⟨row, hrow⟩ := exists_row (c := c) (hmass path hlegal (hlength ▸ htwo))
    obtain ⟨raw, hraw, rfl, hrowmass⟩ := row_eq_ok_iff.mp hrow
    obtain ⟨index, x, hx, hopen⟩ := Row.hasMass_iff.mp hrowmass
    have he : (⟨path, index, path.score + x⟩ : Extension α) ∈ extensions path _ :=
      mem_extensions_iff.mpr ⟨rfl, x, hx, rfl⟩
    have hkept := hlegal.kept
    rw [hlength] at hkept
    obtain ⟨path', hfollow⟩ := exists_follow htwo hkept hrow he
    have hkeeps := not_le_of_lt (hsafe x hopen (nonpos_of_constrained hraw hx))
    obtain ⟨hlegal', hlength'⟩ := (legal_succ_iff htwo).mpr
      ⟨path, ⟨hlegal, hlength⟩, _, hrow, _, he, hkeeps, hfollow⟩
    exact ⟨_, path', hlegal', by omega, rfl⟩
  · exact ⟨_, path, hlegal, by omega, rfl⟩

omit [LawfulScore α] in
/-- With a place for every entry there is room for all legal paths of up to
one entry. -/
theorem encard_legalAt_le_of_le_two (hunits : p.numSteps ≤ 2) {i : Nat} (hi : i < p.numSteps) :
    (legalAt p c i).encard ≤ p.vocab.size := by
  rcases Nat.eq_zero_or_pos i with rfl | hpos
  · rw [(exhausts_start p c).encard]
    exact Nat.cast_le.mpr p.vocab.one_le_size
  · obtain rfl : i = 1 := by omega
    exact encard_legalAt_one_le p c

/-- A beam search is exact as long as it drops nothing before the last step:
with room for all legal paths of each length but the last, it returns the
best legal paths, and its best is the best of all.  With a place for every
entry of the vocabulary it is exact for up to two units. -/
theorem search_exact (p : Position α) (constrained : Bool)
    (hmass : LegalMass p (p.constraint constrained)) :
    (∀ width ≤ p.vocab.size, 0 < p.numSteps →
      (∀ i < p.numSteps, (legalAt p (p.constraint constrained) i).encard ≤ width) →
      (legalAt p (p.constraint constrained) p.numSteps).Nonempty →
      ∃ found, Beam.search p width constrained = .ok found ∧
        BestOf p (p.constraint constrained) width found.candidates ∧
        found.candidates.head? = some found.best ∧
        ∀ path, Legal p (p.constraint constrained) path → path.sequence.length = p.numSteps →
          path.score ≤ found.best.score) ∧
    ((Std.Commutative fun x y : α => x + y) → p.numSteps ≤ 2 →
      ∃ found, Beam.search p p.vocab.size constrained = .ok found ∧
        (∃ path, Legal p (p.constraint constrained) path ∧ path.sequence.length = p.numSteps ∧
          found.best = candidate path) ∧
        ∀ path, Legal p (p.constraint constrained) path → path.sequence.length = p.numSteps →
          path.score ≤ found.best.score) := by
  refine ⟨fun width hsize hunits hroom hsome => ?_, fun hadd htwo => ?_⟩
  · obtain ⟨found, hsearch, hbest⟩ := exists_search_of_room hmass hunits hsize hroom hsome
    have hfirst := head?_candidates hsearch
    exact ⟨found, hsearch, hbest, hfirst, fun path => hbest.le_best hfirst⟩
  · rcases Nat.eq_zero_or_pos p.numSteps with hnone | hunits
    · obtain ⟨found, hsearch, hbest⟩ :=
        search_of_no_units hnone p.vocab.one_le_size (Nat.le_refl _) constrained
      refine ⟨found, hsearch, ⟨Path.start, .start, hnone.symm, hbest⟩, ?_⟩
      intro path hlegal hlength
      rw [hlegal.eq_start (hlength.trans hnone), hbest]
      exact zero_le_zero
    · obtain ⟨found, hsearch, hbest⟩ := exists_search_of_room hmass hunits (Nat.le_refl _)
        (fun i hi => encard_legalAt_le_of_le_two htwo hi)
        (nonempty_legalAt_of_le_two hmass htwo hadd)
      have hfirst := head?_candidates hsearch
      exact ⟨found, hsearch, hbest.legal _ (List.mem_of_mem_head? hfirst),
        fun path => hbest.le_best hfirst⟩

end Beam
theorem Position.AlwaysMass.legalMass {α : Type} [Score α] {p : Position α} (h : p.AlwaysMass)
    (c : Constraint) : Beam.LegalMass p c := fun path _ hlt => h path.sequence hlt

/-- Three units, the first and the last of which can stay or disband. -/
def branching : Position Stark :=
  Stark.position 3
    [Stark.row 13 [(0, 0), (6, 0)], Stark.row 13 [(0, 0)], Stark.row 13 [(0, 0), (6, -200)]]

theorem alwaysMass_branching : branching.AlwaysMass :=
  Position.alwaysMass_table rfl (by decide) (by decide +kernel)

theorem alwaysMass_contested : contested.AlwaysMass :=
  Position.alwaysMass_table rfl (by decide) (by decide +kernel)

/-- Of the four legal paths three have a place.  For two units as many places
as there are entries will do. -/
theorem branching_exact :
    (Beam.LegalMass branching (branching.constraint true) ∧ 3 ≤ branching.vocab.size ∧
      0 < branching.numSteps ∧
      (∀ i < 3, (Beam.legalAt branching (branching.constraint true) i).encard ≤ 3) ∧
      (Beam.legalAt branching (branching.constraint true) 3).encard = 4) ∧
    (∃ found, Beam.search branching 3 true = .ok found ∧
      Beam.BestOf branching (branching.constraint true) 3 found.candidates) ∧
    (Beam.LegalMass contested (contested.constraint true) ∧ contested.numSteps ≤ 2) ∧
    ∃ found, Beam.search contested contested.vocab.size true = .ok found ∧
      ∀ path, Beam.Legal contested (contested.constraint true) path →
        path.sequence.length = contested.numSteps → path.score ≤ found.best.score := by
  have hmass := alwaysMass_branching.legalMass (branching.constraint true)
  have hmass' := alwaysMass_contested.legalMass (contested.constraint true)
  have hfree : ∀ i ≤ 3, [1, 2, 2, 4].getD i 0 < 5 ∧
      (takeSteps (Beam.step branching (branching.constraint true) 5) i [Path.start]).map List.length
        = .ok ([1, 2, 2, 4].getD i 0) := by decide +kernel
  have hcount (n : Nat) (hn : n ≤ 3) :
      (Beam.legalAt branching (branching.constraint true) n).encard
        = (([1, 2, 2, 4].getD n 0 : Nat) : ℕ∞) :=
    Beam.encard_legalAt_of_free hmass hn fun i hi => hfree i (Nat.le_trans hi hn)
  have hroom : ∀ i < 3, (Beam.legalAt branching (branching.constraint true) i).encard
      ≤ ((3 : Nat) : ℕ∞) := by
    intro i hi
    rw [hcount i (Nat.le_of_lt hi)]
    exact Nat.cast_le.mpr ((by decide : ∀ i < 3, [1, 2, 2, 4].getD i 0 ≤ 3) i hi)
  have hsome : (Beam.legalAt branching (branching.constraint true) 3).Nonempty := by
    rw [← Set.encard_pos, hcount 3 (Nat.le_refl 3)]
    decide
  obtain ⟨hexact, -⟩ := Beam.search_exact branching true hmass
  obtain ⟨-, htwo⟩ := Beam.search_exact contested true hmass'
  obtain ⟨found, hfound, hbest, -⟩ := hexact 3 (by decide) (by decide) hroom hsome
  obtain ⟨found', hfound', -, hle⟩ := htwo inferInstance (by decide)
  exact ⟨⟨hmass, by decide, by decide, hroom, hcount 3 (Nat.le_refl 3)⟩, ⟨found, hfound, hbest⟩,
    ⟨hmass', by decide⟩, found', hfound', hle⟩

end OrderDecoding
