/-
# `Proofs.BestScores` — the best of all sums from the best of each summand

A step of a beam search without a mask adds every log-probability of one
row to every score that it has kept, and keeps the best of the sums
(`scores_survivors`).  Nothing is lost by having kept only the best before:
the best sums of the best scores are the best sums of ALL scores
(`bestOpen_sums`).

The reason is an exchange.  A score that was dropped is either masked, and
then so are its sums, or there are as many scores kept as there are places,
each at least as high; and whatever is added to the dropped one can be added
to each of these.  So a sum of it has enough sums before it to be dropped
as well (`Splits.excluded_of_le_countP`).  Ties and sums that rounding brings
together do no harm, because only scores are compared here, and of two equal
scores it does not matter which is kept.
-/
import OrderDecoding.Proofs.Survivors

namespace OrderDecoding
namespace Row

open Score LawfulScore

variable {α : Type} [Score α]

/-! ## The best open scores -/

/-- The score is not masked. -/
def isOpen (x : α) : Bool := !decide (x ≤ negInf)

/-- All scores, from the highest to the lowest. -/
def descending (row : List α) : List α := row.mergeSort fun x y => ranks y x

/-- The number of scores above `-∞`. -/
def openCount (row : List α) : Nat := row.countP fun x => decide (negInf < x)

/-- The highest `k` scores that are not masked. -/
def bestOpen (k : Nat) (row : List α) : List α := ((descending row).takeWhile isOpen).take k

/-- All sums of a score and an entry of the row. -/
def sums (scores row : List α) : List α := scores.flatMap fun s => row.map (s + ·)

theorem isOpen_iff {x : α} : isOpen x = true ↔ ¬ x ≤ negInf := by simp [isOpen]

theorem perm_descending (row : List α) : (descending row).Perm row := List.mergeSort_perm _ _

theorem sums_append (scores more row : List α) :
    sums (scores ++ more) row = sums scores row ++ sums more row := List.flatMap_append

theorem mem_sums {scores row : List α} {x : α} :
    x ∈ sums scores row ↔ ∃ s ∈ scores, ∃ y ∈ row, s + y = x := by
  simp only [sums, List.mem_flatMap, List.mem_map]

section

variable [LawfulOrder α]

theorem pairwise_descending (row : List α) :
    (descending row).Pairwise fun x y => ranks y x = true := by
  refine List.pairwise_mergeSort ?_ ?_ row
  · intro a b c hab hbc
    exact LawfulOrder.ranks_trans hbc hab
  · intro a b
    exact (Bool.or_eq_true _ _).mpr (LawfulOrder.ranks_total b a)

/-- A list in descending order is that of any list with the same
scores. -/
theorem descending_eq_of_perm {row sorted : List α} (h : sorted.Perm row)
    (hsorted : sorted.Pairwise fun x y => ranks y x = true) : descending row = sorted :=
  List.Perm.eq_of_pairwise (fun _ _ _ _ hxy hyx => LawfulOrder.ranks_antisymm hyx hxy)
    (pairwise_descending row) hsorted ((perm_descending row).trans h.symm)

/-- A ranking is in descending order. -/
theorem scores_ranking (row : List α) : (ranking row).map (·.1) = descending row := by
  refine (descending_eq_of_perm ?_ ?_).symm
  · have hperm := (perm_ranking row).map (·.1)
    rwa [List.zipIdx_map_fst] at hperm
  · rw [List.pairwise_map]
    exact (pairwise_ranking row).imp fun hab => (outranks_iff.mp hab).1

end

variable [LawfulScore α]

/-! ## The best and the rest -/

/-- A score without a place among the best `k`: all that have one are at
least as high, and unless the places are all taken it is masked. -/
structure Excluded (k : Nat) (kept : List α) (y : α) : Prop where
  below : ∀ x ∈ kept, ranks y x = true
  full : kept.length = k ∨ y ≤ negInf

/-- `kept` are the best `k` open scores of a row, and `rest` are the
others. -/
structure Splits (k : Nat) (row kept rest : List α) : Prop where
  perm : row.Perm (kept ++ rest)
  sorted : kept.Pairwise fun x y => ranks y x = true
  unmasked : ∀ x ∈ kept, ¬ x ≤ negInf
  length_le : kept.length ≤ k
  excluded : ∀ y ∈ rest, Excluded k kept y

/-- Behind the open scores of a descending list all are masked. -/
theorem masked_dropWhile {row : List α} (hvalid : Valid row)
    (hsorted : row.Pairwise fun x y => ranks y x = true) :
    ∀ y ∈ row.dropWhile isOpen, y ≤ negInf := by
  intro y hy
  cases hdrop : row.dropWhile isOpen with
  | nil =>
    rw [hdrop] at hy
    cases hy
  | cons first rest =>
    have hfirst : first ≤ negInf := by
      have hnot := List.head_dropWhile_not isOpen (l := row) (by simp [hdrop])
      simpa [hdrop, isOpen] using hnot
    have hsuffix := List.dropWhile_suffix (l := row) isOpen
    have hpairwise := hsorted.sublist hsuffix.sublist
    have hnum : ∀ z ∈ row.dropWhile isOpen, z ≤ z := fun z hz =>
      self_le_of_lt_posInf (hvalid z (hsuffix.subset hz))
    rw [hdrop] at hy hpairwise hnum
    rcases List.mem_cons.mp hy with rfl | hrest
    · exact hfirst
    · exact le_trans (le_of_ranks (hnum y hy) (hnum first List.mem_cons_self)
        ((List.pairwise_cons.mp hpairwise).1 y hrest)) hfirst

theorem exists_splits (k : Nat) {row : List α} (hvalid : Valid row) :
    ∃ rest, Splits k row (bestOpen k row) rest := by
  set all := descending row with hall
  have hsorted : all.Pairwise fun x y => ranks y x = true := pairwise_descending row
  have hperm : all.Perm row := perm_descending row
  have hmasked := masked_dropWhile (fun x hx => hvalid x (hperm.subset hx)) hsorted
  have hsplit : all =
      bestOpen k row ++ ((all.takeWhile isOpen).drop k ++ all.dropWhile isOpen) := by
    rw [bestOpen, ← List.append_assoc, List.take_append_drop, List.takeWhile_append_dropWhile]
  have hpairwise := hsorted
  rw [hsplit, List.pairwise_append] at hpairwise
  have hrest : ∀ y ∈ (all.takeWhile isOpen).drop k ++ all.dropWhile isOpen,
      (bestOpen k row).length = k ∨ y ≤ negInf := by
    intro y hy
    rcases Nat.lt_or_ge (all.takeWhile isOpen).length k with hlt | hge
    · rw [List.drop_eq_nil_of_le (Nat.le_of_lt hlt), List.nil_append] at hy
      exact Or.inr (hmasked y hy)
    · exact Or.inl (List.length_take_of_le hge)
  refine ⟨_, hsplit ▸ hperm.symm, hpairwise.1, fun x hx => ?_, List.length_take_le ..,
    fun y hy => ?_⟩
  · exact isOpen_iff.mp (List.mem_takeWhile_imp (List.mem_of_mem_take hx))
  · exact ⟨fun x hx => hpairwise.2.2 x hx y hy, hrest y hy⟩

/-- There is only one way to split off the best. -/
theorem Splits.eq {k : Nat} {row kept rest : List α} (h : Splits k row kept rest) :
    bestOpen k row = kept := by
  have hall : descending row = kept ++ descending rest := by
    refine descending_eq_of_perm ((List.Perm.append_left kept (perm_descending rest)).trans
      h.perm.symm) (List.pairwise_append.mpr ⟨h.sorted, pairwise_descending rest, ?_⟩)
    intro x hx y hy
    exact (h.excluded y ((perm_descending rest).subset hy)).below x hx
  rw [bestOpen, hall,
    List.takeWhile_append_of_pos fun x hx => isOpen_iff.mpr (h.unmasked x hx)]
  by_cases hfull : kept.length = k
  · exact List.take_left' hfull
  · have hnone : (descending rest).takeWhile isOpen = [] := by
      refine List.eq_nil_iff_forall_not_mem.mpr fun x hx => ?_
      have hmem := (perm_descending rest).subset ((List.takeWhile_prefix isOpen).subset hx)
      exact isOpen_iff.mp (List.mem_takeWhile_imp hx) ((h.excluded x hmem).full.resolve_left hfull)
    rw [hnone, List.append_nil, List.take_of_length_le h.length_le]

omit [LawfulScore α] in
theorem Splits.of_perm {k : Nat} {row row' kept rest : List α} (h : Splits k row kept rest)
    (hperm : row'.Perm row) : Splits k row' kept rest :=
  { h with perm := hperm.trans h.perm }

omit [LawfulScore α] in
/-- Scores without a place change nothing about the best. -/
theorem Splits.append {k : Nat} {row kept rest more : List α} (h : Splits k row kept rest)
    (hmore : ∀ y ∈ more, Excluded k kept y) : Splits k (row ++ more) kept (rest ++ more) where
  perm := by
    rw [← List.append_assoc]
    exact h.perm.append_right more
  sorted := h.sorted
  unmasked := h.unmasked
  length_le := h.length_le
  excluded y hy := (List.mem_append.mp hy).elim (h.excluded y) (hmore y)

/-- A masked score has no place. -/
theorem Splits.excluded_negInf {k : Nat} {row kept rest : List α} (h : Splits k row kept rest)
    (hvalid : Valid row) : Excluded k kept negInf := by
  refine ⟨fun x hx => (ranks_total negInf x).resolve_right fun hle => ?_, Or.inr negInf_le_negInf⟩
  have hnum := self_le_of_lt_posInf (hvalid x (h.perm.mem_iff.mpr (List.mem_append_left _ hx)))
  exact h.unmasked x hx (le_of_ranks hnum negInf_le_negInf hle)

/-- A score with as many at or above it as there are places has none. -/
theorem Splits.excluded_of_le_countP {k : Nat} {row kept rest : List α}
    (h : Splits k row kept rest) (hvalid : Valid row) {y : α} (hy : y ≤ y)
    (hcount : k ≤ row.countP (ranks y)) : Excluded k kept y := by
  by_cases hrest : ∃ z ∈ rest, ranks y z = true
  · obtain ⟨z, hz, hyz⟩ := hrest
    have hout := h.excluded z hz
    have hnum := self_le_of_lt_posInf
      (hvalid z (h.perm.mem_iff.mpr (List.mem_append_right _ hz)))
    exact ⟨fun x hx => ranks_trans hyz (hout.below x hx),
      hout.full.imp_right (le_trans (le_of_ranks hy hnum hyz))⟩
  · -- then all that count are kept, and they fill the places
    have hnone : rest.countP (ranks y) = 0 :=
      List.countP_eq_zero.mpr fun z hz hyz => hrest ⟨z, hz, hyz⟩
    rw [h.perm.countP_eq, List.countP_append, hnone, Nat.add_zero] at hcount
    have hle := List.countP_le_length (l := kept) (p := ranks y)
    have hlength := h.length_le
    exact ⟨List.countP_eq_length.mp (by omega), Or.inl (by omega)⟩

/-- The best open scores are as many as there are places and open scores. -/
theorem bestOpen_eq_take (k : Nat) {row : List α} (hvalid : Valid row) :
    bestOpen k row = (descending row).take (min k (openCount row)) := by
  set all := descending row with hall
  have hperm : all.Perm row := perm_descending row
  have hmasked := masked_dropWhile (fun x hx => hvalid x (hperm.subset hx))
    (pairwise_descending row)
  have hcount : (all.takeWhile isOpen).length = openCount row := by
    have hopen : ∀ x ∈ all.takeWhile isOpen, decide (negInf < x) = true := by
      intro x hx
      have hnum := hvalid x (hperm.subset ((List.takeWhile_prefix isOpen).subset hx))
      exact decide_eq_true (negInf_lt (self_le_of_lt_posInf hnum)
        (isOpen_iff.mp (List.mem_takeWhile_imp hx)))
    have hnone : (all.dropWhile isOpen).countP (fun x => decide (negInf < x)) = 0 := by
      refine List.countP_eq_zero.mpr fun x hx hlt => ?_
      exact not_le_of_lt (of_decide_eq_true hlt) (hmasked x hx)
    rw [openCount, ← hperm.countP_eq, ← List.takeWhile_append_dropWhile (p := isOpen) (l := all),
      List.countP_append, hnone, List.countP_eq_length.mpr hopen, Nat.add_zero,
      List.takeWhile_append_dropWhile]
  rw [bestOpen, List.prefix_iff_eq_take.mp (List.takeWhile_prefix isOpen), hcount, List.take_take]

/-! ## Sums -/

theorem sums_nonpos {scores row : List α} (hscores : ∀ s ∈ scores, s ≤ 0)
    (hrow : ∀ y ∈ row, y ≤ 0) : ∀ x ∈ sums scores row, x ≤ 0 := by
  intro x hx
  obtain ⟨s, hs, y, hy, rfl⟩ := mem_sums.mp hx
  exact add_nonpos (hscores s hs) (hrow y hy)

theorem valid_of_nonpos {row : List α} (h : ∀ x ∈ row, x ≤ 0) : Valid row :=
  fun x hx => lt_posInf_of_nonpos (h x hx)

omit [LawfulScore α] in
/-- Each score gives a sum with any one entry. -/
theorem length_le_countP_sums {scores row : List α} {q : α → Bool} {y : α} (hy : y ∈ row)
    (h : ∀ s ∈ scores, q (s + y) = true) : scores.length ≤ (sums scores row).countP q := by
  induction scores with
  | nil => exact Nat.zero_le _
  | cons s rest ih =>
    have hone : 0 < (row.map (s + ·)).countP q :=
      List.countP_pos_iff.mpr ⟨s + y, List.mem_map_of_mem hy, h s List.mem_cons_self⟩
    have hrest := ih fun t ht => h t (List.mem_cons_of_mem s ht)
    rw [sums, List.flatMap_cons, List.countP_append, List.length_cons, Nat.add_comm]
    exact Nat.add_le_add hone hrest

/-- The best sums of the best scores are the best of all sums. -/
theorem bestOpen_sums (habsorb : ∀ x : α, x ≤ 0 → negInf + x = negInf) (k : Nat)
    {scores row : List α} (hscores : ∀ s ∈ scores, s ≤ 0) (hrow : ∀ y ∈ row, y ≤ 0) :
    bestOpen k (sums (bestOpen k scores) row) = bestOpen k (sums scores row) := by
  obtain ⟨dropped, hsplit⟩ := exists_splits k (valid_of_nonpos hscores)
  set best := bestOpen k scores
  have hbest : ∀ s ∈ best, s ≤ 0 := fun s hs =>
    hscores s (hsplit.perm.mem_iff.mpr (List.mem_append_left _ hs))
  have hdropped : ∀ s ∈ dropped, s ≤ 0 := fun s hs =>
    hscores s (hsplit.perm.mem_iff.mpr (List.mem_append_right _ hs))
  have hvalid := valid_of_nonpos (sums_nonpos hbest hrow)
  obtain ⟨rest, hsums⟩ := exists_splits k hvalid
  -- the exchange: whatever a dropped score is added to, as many kept ones can be
  have hexchange : ∀ x ∈ sums dropped row, Excluded k (bestOpen k (sums best row)) x := by
    intro x hx
    obtain ⟨s, hs, y, hy, rfl⟩ := mem_sums.mp hx
    have hout := hsplit.excluded s hs
    rcases hout.full with hfull | hmasked
    · have hnum : s + y ≤ s + y := le_self_left (add_nonpos (hdropped s hs) (hrow y hy))
      refine hsums.excluded_of_le_countP hvalid hnum (hfull ▸ length_le_countP_sums hy ?_)
      intro t ht
      exact ranks_add (hout.below t ht) (lt_posInf_of_nonpos (hdropped s hs))
        (lt_posInf_of_nonpos (hbest t ht)) (lt_posInf_of_nonpos (hrow y hy))
    · rw [eq_negInf hmasked, habsorb y (hrow y hy)]
      exact hsums.excluded_negInf hvalid
  have hperm : (sums scores row).Perm (sums best row ++ sums dropped row) := by
    rw [← sums_append]
    exact hsplit.perm.flatMap_right _
  exact ((hsums.append hexchange).of_perm hperm).eq.symm

end Row

/-! ## The scores that survive -/

/-- The scores of the survivors are the best open scores of all. -/
theorem Beam.scores_survivors {α : Type} [Score α] [LawfulScore α] (width : Nat)
    (all : List (Extension α)) :
    (survivors width all).map (·.score) = Row.bestOpen width (all.map (·.score)) := by
  have hget : ∀ b ∈ Row.ranking (all.map (·.score)),
      (all[b.2]?).map (·.score) = some b.1 := by
    intro b hb
    rw [← List.getElem?_map]
    exact Row.mem_ranking.mp hb
  have hscores : ((Row.ranking (all.map (·.score))).filterMap fun b => all[b.2]?).map (·.score)
      = Row.descending (all.map (·.score)) := by
    rw [List.map_filterMap, List.filterMap_congr hget, ← Row.scores_ranking]
    exact congrFun List.filterMap_eq_map _
  rw [survivors_eq_take, List.map_take, contenders, Row.bestOpen, ← hscores, List.takeWhile_map]
  rfl

end OrderDecoding
