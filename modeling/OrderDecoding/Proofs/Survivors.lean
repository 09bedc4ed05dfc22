/-
# `Proofs.Survivors` — the extensions that a beam search keeps

The survivors of a step are read off the ranking of all extensions by
score.  An extension survives exactly if it is not masked and its index is
among the best (`mem_survivors_iff`): a search never passes over an
extension for another reason than that there are enough better ones.

More places change nothing about the ones before: what survives with any
number of places is an initial piece of one and the same list
(`survivors_eq_take`), that of everything which is not masked, best first
(`mem_contenders_iff`, `descending_contenders`).  So where anything
survives, the best of all comes first (`survivors_cases`).
-/
import Mathlib.Data.List.TakeWhile
import OrderDecoding.Proofs.Masking
import OrderDecoding.Proofs.Ranking
import OrderDecoding.Strategy.Beam

namespace OrderDecoding
namespace Beam

open Score LawfulScore

variable {α : Type}

theorem filterMap_take {β γ : Type} {f : β → Option γ} {l : List β} (h : ∀ b ∈ l, ∃ c, f b = some c)
    (k : Nat) : (l.take k).filterMap f = (l.filterMap f).take k := by
  induction l generalizing k with
  | nil => simp
  | cons b rest ih =>
    cases k with
    | zero => simp
    | succ k =>
      obtain ⟨c, hc⟩ := h b List.mem_cons_self
      rw [List.take_succ_cons, List.filterMap_cons_some hc, List.filterMap_cons_some hc,
        List.take_succ_cons, ih fun b hb => h b (List.mem_cons_of_mem _ hb)]

/-- Where nothing that holds comes after something that does not, what holds
up to the first exception is all that holds. -/
theorem takeWhile_eq_filter {β : Type} {q : β → Bool} {l : List β}
    (h : l.Pairwise fun a b => q b = true → q a = true) : l.takeWhile q = l.filter q := by
  induction l with
  | nil => rfl
  | cons a rest ih =>
    obtain ⟨ha, hrest⟩ := List.pairwise_cons.mp h
    by_cases hq : q a = true
    · rw [List.takeWhile_cons_of_pos hq, List.filter_cons_of_pos hq, ih hrest]
    · have hnone : rest.filter q = [] :=
        List.filter_eq_nil_iff.mpr fun b hb hqb => hq (ha b hb hqb)
      rw [List.takeWhile_cons_of_neg hq, List.filter_cons_of_neg hq, hnone]

/-! ## Places -/

theorem getElem?_scores {all : List (Extension α)} {i : Nat} {e : Extension α}
    (h : all[i]? = some e) : (all.map (·.score))[i]? = some e.score := by
  rw [List.getElem?_map, h]
  rfl

variable [Score α] {width : Nat} {all : List (Extension α)}

/-- The extensions that have a place, masked ones included. -/
def placed (width : Nat) (all : List (Extension α)) : List (Extension α) :=
  (Row.topK (all.map (·.score)) width).filterMap (all[·]?)

/-- All extensions, masked ones included, best first. -/
def ordered (all : List (Extension α)) : List (Extension α) :=
  (Row.ranking (all.map (·.score))).filterMap fun b => all[b.2]?

theorem exists_of_mem_ranking {b : α × Nat} (h : b ∈ Row.ranking (all.map (·.score))) :
    ∃ e, all[b.2]? = some e ∧ e.score = b.1 := by
  have hx := Row.mem_ranking.mp h
  rw [List.getElem?_map] at hx
  exact Option.map_eq_some_iff.mp hx

theorem mem_ordered {e : Extension α} : e ∈ ordered all ↔ e ∈ all := by
  rw [ordered, List.mem_filterMap, List.mem_iff_getElem?]
  constructor
  · rintro ⟨b, -, hb⟩
    exact ⟨b.2, hb⟩
  · rintro ⟨i, hi⟩
    exact ⟨(e.score, i), Row.mem_ranking.mpr (getElem?_scores hi), hi⟩

theorem mem_placed {e : Extension α} : e ∈ placed width all ↔
    ∃ i : Nat, all[i]? = some e ∧ i ∈ Row.topK (all.map (·.score)) width := by
  rw [placed, List.mem_filterMap]
  exact exists_congr fun i => and_comm

/-- Survivors are extensions that are not masked. -/
theorem mem_of_mem_survivors {e : Extension α} (h : e ∈ survivors width all) :
    e ∈ all ∧ ¬ e.score ≤ negInf := by
  have hopen := List.mem_takeWhile_imp h
  obtain ⟨i, hi, -⟩ := mem_placed.mp ((List.takeWhile_sublist _).subset h)
  exact ⟨List.mem_of_getElem? hi, by simpa using hopen⟩

variable [LawfulScore α]

theorem pairwise_ordered (all : List (Extension α)) :
    (ordered all).Pairwise fun e e' => ranks e'.score e.score = true := by
  rw [ordered, List.pairwise_filterMap]
  refine (Row.pairwise_ranking _).imp_of_mem fun {a b} ha hb hab e he e' he' => ?_
  have ha := Row.mem_ranking.mp ha
  have hb := Row.mem_ranking.mp hb
  rw [getElem?_scores he, Option.some.injEq] at ha
  rw [getElem?_scores he', Option.some.injEq] at hb
  rw [ha, hb]
  exact (Row.outranks_iff.mp hab).1

theorem placed_eq_take (width : Nat) (all : List (Extension α)) :
    placed width all = (ordered all).take width := by
  have hget : ∀ b ∈ Row.ranking (all.map (·.score)), ∃ e, all[b.2]? = some e := by
    intro b hb
    obtain ⟨e, he, -⟩ := exists_of_mem_ranking hb
    exact ⟨e, he⟩
  rw [placed, Row.topK, List.filterMap_map, Row.best_eq_take, ordered]
  exact filterMap_take hget width

/-- A place further on is no better. -/
theorem pairwise_placed (width : Nat) (all : List (Extension α)) :
    (placed width all).Pairwise fun e e' => ranks e'.score e.score = true := by
  rw [placed_eq_take]
  exact (pairwise_ordered all).sublist (List.take_sublist ..)

/-- Among extensions in order nothing comes after a masked one but masked
ones. -/
theorem takeWhile_open {es : List (Extension α)} (hvalid : ∀ e ∈ es, e.score < posInf)
    (h : es.Pairwise fun e e' => ranks e'.score e.score = true) :
    es.takeWhile (fun e => !decide (e.score ≤ negInf)) =
      es.filter fun e => !decide (e.score ≤ negInf) := by
  refine takeWhile_eq_filter (h.imp_of_mem fun {e e'} he he' hrank => ?_)
  have hnum := self_le_of_lt_posInf (hvalid e he)
  have hnum' := self_le_of_lt_posInf (hvalid e' he')
  simp only [Bool.not_eq_true', decide_eq_false_iff_not]
  exact fun hopen hmasked => hopen (le_trans (le_of_ranks hnum' hnum hrank) hmasked)

theorem length_survivors_le (width : Nat) (all : List (Extension α)) :
    (survivors width all).length ≤ width := by
  calc (survivors width all).length ≤ (placed width all).length :=
        (List.takeWhile_sublist _).length_le
    _ ≤ (Row.topK (all.map (·.score)) width).length := List.length_filterMap_le ..
    _ ≤ width := by
        rw [Row.topK, List.length_map, Row.best_eq_take]
        exact List.length_take_le ..

/-! ## Survivors -/

theorem pairwise_survivors (width : Nat) (all : List (Extension α)) :
    (survivors width all).Pairwise fun e e' => ranks e'.score e.score = true :=
  (pairwise_placed width all).sublist (List.takeWhile_sublist _)

/-- An extension survives if it has a place and is not masked: what comes
before it is no worse, and so not masked either. -/
theorem mem_survivors_iff (hvalid : ∀ e ∈ all, e.score < posInf) {e : Extension α} :
    e ∈ survivors width all ↔ ∃ i : Nat, all[i]? = some e ∧
      i ∈ Row.topK (all.map (·.score)) width ∧ ¬ e.score ≤ negInf := by
  have hplaced : ∀ e ∈ placed width all, e.score < posInf := by
    intro e he
    obtain ⟨i, hi, -⟩ := mem_placed.mp he
    exact hvalid e (List.mem_of_getElem? hi)
  have hsurvivors : survivors width all =
      (placed width all).filter fun e => !decide (e.score ≤ negInf) :=
    takeWhile_open hplaced (pairwise_placed width all)
  rw [hsurvivors, List.mem_filter, mem_placed, Bool.not_eq_true', decide_eq_false_iff_not]
  exact ⟨fun ⟨⟨i, hi, hplace⟩, hopen⟩ => ⟨i, hi, hplace, hopen⟩,
    fun ⟨i, hi, hplace, hopen⟩ => ⟨⟨i, hi, hplace⟩, hopen⟩⟩

/-! ## More places -/

/-- All extensions that are not masked, best first. -/
def contenders (all : List (Extension α)) : List (Extension α) :=
  ((Row.ranking (all.map (·.score))).filterMap fun b => all[b.2]?).takeWhile fun e =>
    !decide (e.score ≤ negInf)

theorem survivors_eq_take (width : Nat) (all : List (Extension α)) :
    survivors width all = (contenders all).take width := by
  change (placed width all).takeWhile _ = ((ordered all).takeWhile _).take width
  rw [placed_eq_take, List.take_takeWhile]

omit [LawfulScore α] in
theorem length_contenders_le (all : List (Extension α)) :
    (contenders all).length ≤ all.length := by
  calc (contenders all).length
      ≤ ((Row.ranking (all.map (·.score))).filterMap fun b => all[b.2]?).length :=
        (List.takeWhile_sublist _).length_le
    _ ≤ (Row.ranking (all.map (·.score))).length := List.length_filterMap_le ..
    _ = all.length := by
        rw [(Row.perm_ranking _).length_eq, List.length_zipIdx, List.length_map]

theorem contenders_eq_survivors (all : List (Extension α)) :
    contenders all = survivors all.length all := by
  rw [survivors_eq_take, List.take_of_length_le (length_contenders_le all)]

theorem contenders_eq_filter (hvalid : ∀ e ∈ all, e.score < posInf) :
    contenders all = (ordered all).filter fun e => !decide (e.score ≤ negInf) :=
  takeWhile_open (fun e he => hvalid e (mem_ordered.mp he)) (pairwise_ordered all)

theorem mem_contenders_iff (hvalid : ∀ e ∈ all, e.score < posInf) {e : Extension α} :
    e ∈ contenders all ↔ e ∈ all ∧ ¬ e.score ≤ negInf := by
  rw [contenders_eq_filter hvalid, List.mem_filter, mem_ordered, Bool.not_eq_true',
    decide_eq_false_iff_not]

/-- Sums that can be scores are in order where they are ranked. -/
theorem descending_contenders (hvalid : ∀ e ∈ all, e.score < posInf) :
    (contenders all).Pairwise fun e e' => e'.score ≤ e.score := by
  have hnum : ∀ e ∈ contenders all, e.score ≤ e.score := fun e he =>
    self_le_of_lt_posInf (hvalid e ((mem_contenders_iff hvalid).mp he).1)
  have hranks := contenders_eq_survivors all ▸ pairwise_survivors all.length all
  exact hranks.imp_of_mem fun he he' hrank => le_of_ranks (hnum _ he') (hnum _ he) hrank

/-! ## The best -/

/-- Survivors come with the best extension first; there are none only if
all extensions are masked. -/
theorem survivors_cases (hwidth : 0 < width) (hvalid : ∀ e ∈ all, e.score < posInf) :
    (survivors width all = [] ∧ ∀ e ∈ all, e.score ≤ negInf) ∨
      ∃ best rest, survivors width all = best :: rest ∧ ∀ e ∈ all, e.score ≤ best.score := by
  rw [survivors_eq_take]
  obtain ⟨places, rfl⟩ := Nat.exists_eq_succ_of_ne_zero hwidth.ne'
  have hmem {e : Extension α} := mem_contenders_iff (e := e) hvalid
  have hdescending := descending_contenders hvalid
  cases hcontenders : contenders all with
  | nil =>
    refine Or.inl ⟨List.take_nil, fun e he => ?_⟩
    by_contra hopen
    have hcontends := hmem.mpr ⟨he, hopen⟩
    rw [hcontenders] at hcontends
    cases hcontends
  | cons best rest =>
    rw [hcontenders] at hmem hdescending
    have hnum := self_le_of_lt_posInf (hvalid best (hmem.mp List.mem_cons_self).1)
    refine Or.inr ⟨best, rest.take places, rfl, fun e he => ?_⟩
    by_cases hmasked : e.score ≤ negInf
    · exact le_trans hmasked (negInf_le hnum)
    · rcases List.mem_cons.mp (hmem.mpr ⟨he, hmasked⟩) with rfl | hafter
      · exact hnum
      · exact (List.pairwise_cons.mp hdescending).1 e hafter

theorem survivors_eq_nil_iff (hwidth : 0 < width) (hvalid : ∀ e ∈ all, e.score < posInf) :
    survivors width all = [] ↔ ∀ e ∈ all, e.score ≤ negInf := by
  constructor
  · intro hnone
    rcases survivors_cases hwidth hvalid with ⟨-, hmasked⟩ | ⟨best, rest, hsome, -⟩
    · exact hmasked
    · rw [hnone] at hsome
      cases hsome
  · intro hmasked
    refine List.eq_nil_iff_forall_not_mem.mpr ?_
    intro e he
    obtain ⟨hmem, hopen⟩ := mem_of_mem_survivors he
    exact hopen (hmasked e hmem)

end Beam
end OrderDecoding
