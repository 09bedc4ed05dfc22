/-
# `Proofs.Ranking` — the best entries of a row

`best` walks through a row with `k` places.  It is compared here with the
RANKING of the row, all of its entries sorted: the places always hold the
last `k` of what a full insertion sort would hold by then
(`keepBest_drop`), so in the end they are the first `k` of the ranking
(`best_eq_take`).

The order is linear, ties and all, so a ranking says exactly which entries
have a place: those that fewer than `k` entries come before
(`mem_best_iff`).  One that is left out is outranked by `k` others
(`before_of_not_mem_topK`), and one that has a place is outranked by
fewer (`card_lt_of_mem_topK`).
-/
import Mathlib.Combinatorics.Pigeonhole
import Mathlib.Data.List.Induction
import Mathlib.Data.List.Nodup
import Mathlib.Order.Interval.Finset.Nat
import OrderDecoding.Proofs.Lawful

namespace OrderDecoding
namespace Row

open Score LawfulOrder

variable {α : Type}

theorem nodup_zipIdx (row : List α) : row.zipIdx.Nodup := by
  refine List.Nodup.of_map Prod.snd ?_
  rw [List.zipIdx_map_snd]
  exact List.nodup_range'

variable [Score α]

/-! ## The order of a ranking -/

theorem outranks_iff {a b : α × Nat} : outranks a b = true ↔
    ranks b.1 a.1 = true ∧ (ranks a.1 b.1 = true → a.2 ≤ b.2) := by
  unfold outranks
  cases ranks b.1 a.1 <;> cases ranks a.1 b.1 <;> simp

/-- Entry `i` comes before entry `j` in the ranking. -/
def Before (row : List α) (i j : Nat) : Prop :=
  ∃ x y, row[i]? = some x ∧ row[j]? = some y ∧ i ≠ j ∧ outranks (x, i) (y, j) = true

/-- Coming before does not depend on what follows both. -/
theorem before_of_append {row more : List α} {i j : Nat} (hi : i < row.length)
    (hj : j < row.length) (h : Before (row ++ more) i j) : Before row i j := by
  obtain ⟨x, y, hx, hy, hne, hout⟩ := h
  rw [List.getElem?_append_left hi] at hx
  rw [List.getElem?_append_left hj] at hy
  exact ⟨x, y, hx, hy, hne, hout⟩

section

variable [LawfulOrder α] {a b c : α × Nat}

theorem outranks_total (a b : α × Nat) : outranks a b = true ∨ outranks b a = true := by
  rw [outranks_iff, outranks_iff]
  by_cases hab : ranks a.1 b.1 = true
  · by_cases hba : ranks b.1 a.1 = true
    · rcases Nat.le_total a.2 b.2 with hle | hle
      · exact Or.inl ⟨hba, fun _ => hle⟩
      · exact Or.inr ⟨hab, fun _ => hle⟩
    · exact Or.inr ⟨hab, fun h => absurd h hba⟩
  · exact Or.inl ⟨(ranks_total a.1 b.1).resolve_left hab, fun h => absurd h hab⟩

theorem outranks_self (a : α × Nat) : outranks a a = true := (outranks_total a a).elim id id

theorem outranks_trans (hab : outranks a b = true) (hbc : outranks b c = true) :
    outranks a c = true := by
  rw [outranks_iff] at *
  refine ⟨ranks_trans hbc.1 hab.1, fun hac => ?_⟩
  exact Nat.le_trans (hab.2 (ranks_trans hac hbc.1)) (hbc.2 (ranks_trans hab.1 hac))

theorem outranks_antisymm (hab : outranks a b = true) (hba : outranks b a = true) : a = b := by
  rw [outranks_iff] at *
  exact Prod.ext (ranks_antisymm hba.1 hab.1) (Nat.le_antisymm (hab.2 hba.1) (hba.2 hab.1))

theorem outranks_of_not (h : ¬ outranks a b = true) : outranks b a = true :=
  (outranks_total a b).resolve_left h

theorem Before.trans {row : List α} {i j l : Nat} (hij : Before row i j) (hjl : Before row j l) :
    Before row i l := by
  obtain ⟨x, y, hx, hy, hne, hxy⟩ := hij
  obtain ⟨y', z, hy', hz, -, hyz⟩ := hjl
  obtain rfl : y = y' := Option.some.inj (hy.symm.trans hy')
  refine ⟨x, z, hx, hz, ?_, outranks_trans hxy hyz⟩
  rintro rfl
  obtain rfl : x = z := Option.some.inj (hx.symm.trans hz)
  exact hne (congrArg Prod.snd (outranks_antisymm hxy hyz))

end

/-! ## The ranking -/

theorem perm_insertRanked (entry : α × Nat) (l : List (α × Nat)) :
    (insertRanked entry l).Perm (entry :: l) := by
  induction l with
  | nil => exact .refl _
  | cons w rest ih =>
    rw [insertRanked]
    split
    · exact (ih.cons w).trans (List.Perm.swap entry w rest)
    · exact .refl _

theorem length_insertRanked (entry : α × Nat) (l : List (α × Nat)) :
    (insertRanked entry l).length = l.length + 1 := (perm_insertRanked entry l).length_eq

/-- All entries of a row with their indices, worst first. -/
def sorted (entries : List (α × Nat)) : List (α × Nat) :=
  entries.foldl (fun kept entry => insertRanked entry kept) []

/-- All entries of a row with their indices, best first. -/
def ranking (row : List α) : List (α × Nat) := (sorted row.zipIdx).reverse

theorem sorted_concat (entries : List (α × Nat)) (entry : α × Nat) :
    sorted (entries ++ [entry]) = insertRanked entry (sorted entries) := by
  rw [sorted, List.foldl_append]
  rfl

theorem perm_sorted (entries : List (α × Nat)) : (sorted entries).Perm entries := by
  induction entries using List.reverseRecOn with
  | nil => exact .refl _
  | append_singleton entries e ih =>
    rw [sorted_concat]
    exact (perm_insertRanked e _).trans
      ((ih.cons e).trans (List.perm_append_singleton e entries).symm)

theorem perm_ranking (row : List α) : (ranking row).Perm row.zipIdx :=
  (List.reverse_perm _).trans (perm_sorted _)

theorem mem_ranking {row : List α} {x : α} {i : Nat} :
    (x, i) ∈ ranking row ↔ row[i]? = some x := by
  rw [(perm_ranking row).mem_iff, List.mem_zipIdx_iff_getElem?]

theorem nodup_ranking (row : List α) : (ranking row).Nodup :=
  (perm_ranking row).nodup_iff.mpr (nodup_zipIdx row)

variable [LawfulOrder α]

theorem pairwise_insertRanked {entry : α × Nat} {l : List (α × Nat)}
    (h : l.Pairwise fun a b => outranks b a = true) :
    (insertRanked entry l).Pairwise fun a b => outranks b a = true := by
  induction l with
  | nil => exact List.pairwise_singleton _ _
  | cons w rest ih =>
    obtain ⟨hw, hrest⟩ := List.pairwise_cons.mp h
    rw [insertRanked]
    split
    · next hout =>
      refine List.pairwise_cons.mpr ⟨fun b hb => ?_, ih hrest⟩
      rcases List.mem_cons.mp ((perm_insertRanked entry rest).mem_iff.mp hb) with rfl | hb
      · exact hout
      · exact hw b hb
    · next hout =>
      refine List.pairwise_cons.mpr ⟨fun b hb => ?_, h⟩
      rcases List.mem_cons.mp hb with rfl | hb
      · exact outranks_of_not hout
      · exact outranks_trans (hw b hb) (outranks_of_not hout)

theorem pairwise_sorted (entries : List (α × Nat)) :
    (sorted entries).Pairwise fun a b => outranks b a = true := by
  induction entries using List.reverseRecOn with
  | nil => exact List.Pairwise.nil
  | append_singleton entries e ih =>
    rw [sorted_concat]
    exact pairwise_insertRanked ih

theorem pairwise_ranking (row : List α) :
    (ranking row).Pairwise fun a b => outranks a b = true :=
  List.pairwise_reverse.mpr (pairwise_sorted _)

/-! ## The first places -/

/-- An entry put into the end of a sorted list, and into all of it: one
place further on they agree. -/
theorem insertRanked_drop {entry : α × Nat} {l : List (α × Nat)} (d : Nat)
    (h : l.Pairwise fun a b => outranks b a = true) (hd : d ≤ l.length) :
    (insertRanked entry (l.drop d)).drop 1 = (insertRanked entry l).drop (d + 1) := by
  induction d generalizing l with
  | zero => rfl
  | succ d ih =>
    cases l with
    | nil => cases hd
    | cons w rest =>
      obtain ⟨hw, hrest⟩ := List.pairwise_cons.mp h
      have hd : d ≤ rest.length := Nat.le_of_succ_le_succ hd
      rw [List.drop_succ_cons, insertRanked]
      split
      · rw [List.drop_succ_cons]
        exact ih hrest hd
      · next hout =>
        rw [List.drop_succ_cons, List.drop_succ_cons]
        -- what does not outrank `w` outranks nothing after it
        cases hdrop : rest.drop d with
        | nil => rfl
        | cons b tail =>
          have hb : b ∈ rest := List.mem_of_mem_drop (hdrop ▸ List.mem_cons_self)
          have hnot : ¬ outranks entry b = true := by
            intro hentry
            exact hout (outranks_trans hentry (hw b hb))
          rw [insertRanked, if_neg hnot]
          rfl

theorem keepBest_drop {k : Nat} {entry : α × Nat} {l : List (α × Nat)}
    (h : l.Pairwise fun a b => outranks b a = true) :
    keepBest k (l.drop (l.length - k)) entry =
      (insertRanked entry l).drop ((insertRanked entry l).length - k) := by
  simp only [keepBest, length_insertRanked, List.length_drop]
  rcases Nat.lt_or_ge l.length k with hlt | hge
  · rw [Nat.sub_eq_zero_of_le (Nat.le_of_lt hlt), List.drop_zero, Nat.sub_zero]
  · have hone : l.length - (l.length - k) + 1 - k = 1 := by omega
    have hnext : l.length + 1 - k = l.length - k + 1 := by omega
    rw [hone, hnext]
    exact insertRanked_drop _ h (Nat.sub_le ..)

theorem foldl_keepBest (k : Nat) (entries : List (α × Nat)) :
    entries.foldl (keepBest k) [] = (sorted entries).drop ((sorted entries).length - k) := by
  induction entries using List.reverseRecOn with
  | nil => exact List.drop_nil.symm
  | append_singleton entries e ih =>
    rw [List.foldl_append, ih, sorted_concat, ← keepBest_drop (pairwise_sorted entries)]
    rfl

/-- The best `k` entries are the first `k` of the ranking. -/
theorem best_eq_take (row : List α) (k : Nat) : best row k = (ranking row).take k := by
  rw [best, foldl_keepBest, ranking, List.take_reverse]

variable {row : List α} {k : Nat}

theorem getElem?_of_mem_best {e : α × Nat} (h : e ∈ best row k) : row[e.2]? = some e.1 := by
  rw [best_eq_take] at h
  exact mem_ranking.mp (List.mem_of_mem_take h)

theorem nodup_best : (best row k).Nodup := by
  rw [best_eq_take]
  exact (nodup_ranking row).sublist (List.take_sublist k _)

/-- An entry left out is outranked by all of the best, and there are `k` of
them. -/
theorem outranks_of_not_mem_best {x : α} {i : Nat} (hx : row[i]? = some x)
    (h : (x, i) ∉ best row k) :
    (best row k).length = k ∧ ∀ b ∈ best row k, outranks b (x, i) = true := by
  rw [best_eq_take] at *
  have hmem : (x, i) ∈ (ranking row).take k ++ (ranking row).drop k := by
    rw [List.take_append_drop]
    exact mem_ranking.mpr hx
  have hdrop : (x, i) ∈ (ranking row).drop k := (List.mem_append.mp hmem).resolve_left h
  have hlen : 0 < ((ranking row).drop k).length := List.length_pos_of_mem hdrop
  rw [List.length_drop] at hlen
  refine ⟨by rw [List.length_take]; omega, fun b hb => ?_⟩
  have hpairwise := pairwise_ranking row
  rw [← List.take_append_drop k (ranking row), List.pairwise_append] at hpairwise
  exact hpairwise.2.2 b hb _ hdrop

/-! ## The place of an entry -/

/-- What holds only of a start of a list holds of the entries before its
count. -/
theorem lt_countP_iff {β : Type} {p : β → Bool} {l : List β}
    (h : l.Pairwise fun x y => p y = true → p x = true) {n : Nat} (hn : n < l.length) :
    n < l.countP p ↔ p l[n] = true := by
  induction l generalizing n with
  | nil => cases hn
  | cons x rest ih =>
    obtain ⟨hx, hrest⟩ := List.pairwise_cons.mp h
    by_cases hpx : p x = true
    · rw [List.countP_cons_of_pos hpx]
      cases n with
      | zero => exact iff_of_true (Nat.succ_pos _) hpx
      | succ n => exact Nat.succ_lt_succ_iff.trans (ih hrest (Nat.lt_of_succ_lt_succ hn))
    · have hnone : ∀ y ∈ x :: rest, ¬ p y = true := by
        intro y hy
        rcases List.mem_cons.mp hy with rfl | hy
        · exact hpx
        · exact fun hpy => hpx (hx y hy hpy)
      rw [List.countP_eq_zero.mpr hnone]
      exact iff_of_false (Nat.not_lt_zero n) (hnone _ (List.getElem_mem hn))

omit [LawfulOrder α] in
theorem countP_ranking (p : α → Bool) :
    (ranking row).countP (fun e => p e.1) = row.countP p := by
  have hperm := ((perm_ranking row).map (·.1)).countP_eq p
  rwa [List.zipIdx_map_fst, List.countP_map] at hperm

/-- The number of entries that come before an entry. -/
def place (row : List α) (e : α × Nat) : Nat := (ranking row).countP fun b => !outranks e b

/-- What is outranked by an entry is no further up than it. -/
theorem lt_place_iff (e : α × Nat) {n : Nat} (hn : n < (ranking row).length) :
    n < place row e ↔ ¬ outranks e (ranking row)[n] = true := by
  have hfalls : (ranking row).Pairwise fun a b =>
      (!outranks e b) = true → (!outranks e a) = true := by
    refine (pairwise_ranking row).imp fun {a b} hab hb => ?_
    rw [Bool.not_eq_true', ← Bool.not_eq_true] at hb ⊢
    exact fun ha => hb (outranks_trans ha hab)
  rw [place, lt_countP_iff hfalls hn, Bool.not_eq_true', ← Bool.not_eq_true]

/-- An entry stands right after those that come before it. -/
theorem getElem?_place {e : α × Nat} (he : row[e.2]? = some e.1) :
    (ranking row)[place row e]? = some e := by
  obtain ⟨n, hn, hget⟩ := List.getElem_of_mem (mem_ranking.mpr he)
  have hle : place row e ≤ n := by
    refine Nat.le_of_not_lt fun hlt => (lt_place_iff e hn).mp hlt ?_
    rw [hget]
    exact outranks_self e
  have hlt : place row e < (ranking row).length := Nat.lt_of_le_of_lt hle hn
  rw [List.getElem?_eq_getElem hlt]
  rcases Nat.eq_or_lt_of_le hle with heq | hbefore
  · simp only [heq, hget]
  · have hout : outranks e (ranking row)[place row e] = true := by
      by_contra hnot
      exact Nat.lt_irrefl _ ((lt_place_iff e hlt).mpr hnot)
    have hback := List.pairwise_iff_getElem.mp (pairwise_ranking row) _ _ hlt hn hbefore
    rw [hget] at hback
    rw [outranks_antisymm hback hout]

/-- So it is one of the best `k` exactly if fewer than `k` come before it. -/
theorem mem_best_iff {e : α × Nat} (he : row[e.2]? = some e.1) :
    e ∈ best row k ↔ place row e < k := by
  rw [best_eq_take, List.mem_take_iff_getElem]
  constructor
  · rintro ⟨n, hn, hget⟩
    obtain ⟨hk, hlen⟩ := Nat.lt_min.mp hn
    refine Nat.lt_of_le_of_lt (Nat.le_of_not_lt fun hlt => (lt_place_iff e hlen).mp hlt ?_) hk
    rw [hget]
    exact outranks_self e
  · intro hlt
    obtain ⟨hplace, hget⟩ := List.getElem?_eq_some_iff.mp (getElem?_place he)
    exact ⟨place row e, Nat.lt_min.mpr ⟨hlt, hplace⟩, hget⟩

/-! ## Places by index -/

theorem mem_topK {i : Nat} : i ∈ topK row k ↔ ∃ x, row[i]? = some x ∧ (x, i) ∈ best row k := by
  rw [topK, List.mem_map]
  constructor
  · rintro ⟨⟨x, j⟩, hmem, rfl⟩
    exact ⟨x, getElem?_of_mem_best hmem, hmem⟩
  · rintro ⟨x, -, hmem⟩
    exact ⟨(x, i), hmem, rfl⟩

theorem nodup_topK : (topK row k).Nodup := by
  refine List.Nodup.map_on (fun a ha b hb hab => ?_) nodup_best
  have hx := getElem?_of_mem_best ha
  have hy := getElem?_of_mem_best hb
  rw [hab, hy, Option.some.injEq] at hx
  exact Prod.ext hx.symm hab

/-- An index without a place comes after `k` others. -/
theorem before_of_not_mem_topK {j : Nat} (hj : j < row.length) (h : j ∉ topK row k) :
    (topK row k).length = k ∧ ∀ i ∈ topK row k, Before row i j := by
  have hy := List.getElem?_eq_getElem hj
  have hmem : (row[j], j) ∉ best row k := by
    intro hmem
    exact h (mem_topK.mpr ⟨_, hy, hmem⟩)
  obtain ⟨hlength, hout⟩ := outranks_of_not_mem_best hy hmem
  refine ⟨by rw [topK, List.length_map, hlength], fun i hi => ?_⟩
  obtain ⟨x, hx, hbest⟩ := mem_topK.mp hi
  exact ⟨x, row[j], hx, hy, fun heq => h (heq ▸ hi), hout _ hbest⟩

/-- An index has one of the first `k` places exactly if fewer than `k`
entries come before it. -/
theorem mem_topK_iff {x : α} {i : Nat} (hx : row[i]? = some x) :
    i ∈ topK row k ↔ place row (x, i) < k := by
  rw [← mem_best_iff hx, mem_topK]
  constructor
  · rintro ⟨y, hy, hmem⟩
    obtain rfl : x = y := Option.some.inj (hx.symm.trans hy)
    exact hmem
  · exact fun hmem => ⟨x, hx, hmem⟩

/-- What stands first does so in every selection. -/
theorem head?_topK_iff {i : Nat} (hk : 0 < k) : (topK row k).head? = some i ↔ i ∈ topK row 1 := by
  rw [topK, topK, best_eq_take, best_eq_take, List.head?_map, List.head?_take, if_neg hk.ne',
    List.take_one, List.mem_map]
  cases (ranking row).head? with
  | none => simp
  | some e => simp

/-- An index with a place comes after fewer than `k` others. -/
theorem card_lt_of_mem_topK {j : Nat} (h : j ∈ topK row k) {others : Finset Nat}
    (hothers : ∀ i ∈ others, Before row i j) : others.card < k := by
  obtain ⟨y, hy, -⟩ := mem_topK.mp h
  let ahead := (ranking row).filter fun b => !outranks (y, j) b
  have hsubset : others ⊆ (ahead.map (·.2)).toFinset := by
    intro i hi
    obtain ⟨x, y', hx, hy', hne, hout⟩ := hothers i hi
    obtain rfl : y = y' := Option.some.inj (hy.symm.trans hy')
    have hnot : ¬ outranks (y, j) (x, i) = true := fun hback =>
      hne (congrArg Prod.snd (outranks_antisymm hout hback))
    have hmem : (x, i) ∈ ahead :=
      List.mem_filter.mpr ⟨mem_ranking.mpr hx, by rwa [Bool.not_eq_true', ← Bool.not_eq_true]⟩
    exact List.mem_toFinset.mpr (List.mem_map_of_mem hmem)
  calc others.card ≤ (ahead.map (·.2)).toFinset.card := Finset.card_le_card hsubset
    _ ≤ (ahead.map (·.2)).length := List.toFinset_card_le _
    _ = place row (y, j) := by rw [List.length_map, place, List.countP_eq_length_filter]
    _ < k := (mem_topK_iff hy).mp h

/-! ## Blocks

A row that is put together from blocks of `size` entries each. -/

theorem block_div {size m a : Nat} (ha : a < size) : (m * size + a) / size = m := by
  rw [Nat.mul_comm, Nat.mul_add_div (Nat.zero_lt_of_lt ha), Nat.div_eq_of_lt ha, Nat.add_zero]

theorem block_lt {size n m a : Nat} (hm : m < n) (ha : a < size) : m * size + a < n * size := by
  calc m * size + a < m * size + size := Nat.add_lt_add_left ha _
    _ = (m + 1) * size := (Nat.succ_mul m size).symm
    _ ≤ n * size := Nat.mul_le_mul_right size hm

section

variable {β γ : Type} {f : β → List γ} {size : Nat} {xs : List β}

theorem length_blocks (h : ∀ x ∈ xs, (f x).length = size) :
    (xs.flatMap f).length = xs.length * size := by
  rw [List.length_flatMap, List.map_congr_left h, List.map_const', List.sum_replicate,
    smul_eq_mul]

/-- Entry `a` of block `m`. -/
theorem getElem?_blocks (h : ∀ x ∈ xs, (f x).length = size) {m a : Nat} {x : β}
    (hx : xs[m]? = some x) (ha : a < size) : (xs.flatMap f)[m * size + a]? = (f x)[a]? := by
  induction xs generalizing m with
  | nil => cases hx
  | cons first rest ih =>
    have hfirst : (f first).length = size := h first List.mem_cons_self
    rw [List.flatMap_cons]
    cases m with
    | zero =>
      cases hx
      rw [Nat.zero_mul, Nat.zero_add, List.getElem?_append_left (hfirst ▸ ha)]
    | succ m =>
      have hsub : (m + 1) * size + a - size = m * size + a := by
        rw [Nat.succ_mul]
        omega
      rw [List.getElem?_append_right (by rw [hfirst, Nat.succ_mul]; omega), hfirst, hsub]
      exact ih (fun x hx => h x (List.mem_cons_of_mem first hx)) hx

/-- Every entry is in some block. -/
theorem getElem?_flatMap (h : ∀ x ∈ xs, (f x).length = size) {i : Nat} {y : γ}
    (hy : (xs.flatMap f)[i]? = some y) :
    ∃ x, xs[i / size]? = some x ∧ i % size < size ∧ (f x)[i % size]? = some y := by
  have hi := (List.getElem?_eq_some_iff.mp hy).1
  rw [length_blocks h] at hi
  have hsize : 0 < size := Nat.pos_of_mul_pos_left (Nat.zero_lt_of_lt hi)
  have hm : i / size < xs.length := (Nat.div_lt_iff_lt_mul hsize).mpr hi
  have hx := List.getElem?_eq_getElem hm
  have ha : i % size < size := Nat.mod_lt i hsize
  rw [← Nat.div_add_mod' i size, getElem?_blocks h hx ha] at hy
  exact ⟨_, hx, ha, hy⟩

end

/-- An index with one of `narrow` places that has none of `wide` in the
longer row: two indices before it are of the same additional block. -/
theorem exists_same_block {row more : List α} {size narrow wide i : Nat}
    (hlength : row.length = narrow * size) (hmore : (row ++ more).length ≤ wide * size)
    (hi : i < row.length) (hplace : i ∈ topK row narrow) (hout : i ∉ topK (row ++ more) wide) :
    ∃ m, narrow ≤ m ∧ ∃ j j', j ≠ j' ∧ j / size = m ∧ j' / size = m ∧
      Before (row ++ more) j i ∧ Before (row ++ more) j' i := by
  have hi' : i < (row ++ more).length := by
    rw [List.length_append]
    omega
  obtain ⟨hfull, hbefore⟩ := before_of_not_mem_topK hi' hout
  have hsize : 0 < size := by
    refine Nat.pos_of_ne_zero ?_
    rintro rfl
    rw [hlength, Nat.mul_zero] at hi
    cases hi
  have hle : narrow ≤ wide := Nat.le_of_mul_le_mul_right
    (by rw [← hlength]; rw [List.length_append] at hmore; omega) hsize
  set better := (topK (row ++ more) wide).toFinset with hbetter
  have hcard : better.card = wide := by
    rw [hbetter, List.toFinset_card_of_nodup nodup_topK, hfull]
  have hmem {j : Nat} (hj : j ∈ better) : Before (row ++ more) j i :=
    hbefore j (List.mem_toFinset.mp hj)
  have hlow : (better.filter (· < row.length)).card < narrow := by
    refine card_lt_of_mem_topK hplace ?_
    intro j hj
    obtain ⟨hj, hlt⟩ := Finset.mem_filter.mp hj
    exact before_of_append hlt hi (hmem hj)
  have hhigh : (Finset.Ico narrow wide).card < (better.filter fun j => ¬ j < row.length).card := by
    have hsum := Finset.card_filter_add_card_filter_not (s := better) (fun j => j < row.length)
    rw [hcard] at hsum
    rw [Nat.card_Ico]
    omega
  have hmaps : Set.MapsTo (fun j => j / size)
      (better.filter fun j => ¬ j < row.length) (Finset.Ico narrow wide) := by
    intro j hj
    obtain ⟨hj, hge⟩ := Finset.mem_filter.mp (Finset.mem_coe.mp hj)
    obtain ⟨x, -, hx, -⟩ := hmem hj
    have hlt := (List.getElem?_eq_some_iff.mp hx).1
    refine Finset.mem_coe.mpr (Finset.mem_Ico.mpr ⟨?_, ?_⟩)
    · rw [Nat.le_div_iff_mul_le hsize]
      omega
    · rw [Nat.div_lt_iff_lt_mul hsize]
      omega
  -- more of them than additional blocks
  obtain ⟨j, hj, j', hj', hne, hsame⟩ :=
    Finset.exists_ne_map_eq_of_card_lt_of_maps_to hhigh hmaps
  obtain ⟨hj, hge⟩ := Finset.mem_filter.mp hj
  refine ⟨j / size, ?_, j, j', hne, rfl, hsame.symm, hmem hj, hmem (Finset.mem_filter.mp hj').1⟩
  rw [Nat.le_div_iff_mul_le hsize]
  omega

/-- An index with something before it in each of the first `k` blocks has
none of `k` places. -/
theorem not_mem_topK_of_blocks {size i : Nat}
    (h : ∀ m < k, ∃ j, j / size = m ∧ Before row j i) : i ∉ topK row k := by
  intro hplace
  choose! f hf using h
  have hinjective : Set.InjOn f (Finset.range k) := by
    intro m hm m' hm' heq
    rw [← (hf m (Finset.mem_range.mp (Finset.mem_coe.mp hm))).1,
      ← (hf m' (Finset.mem_range.mp (Finset.mem_coe.mp hm'))).1, heq]
  have hbefore : ∀ j ∈ (Finset.range k).image f, Before row j i := by
    intro j hj
    obtain ⟨m, hm, rfl⟩ := Finset.mem_image.mp hj
    exact (hf m (Finset.mem_range.mp hm)).2
  have hlt := card_lt_of_mem_topK hplace hbefore
  rw [Finset.card_image_of_injOn hinjective, Finset.card_range] at hlt
  exact Nat.lt_irrefl _ hlt

end Row

end OrderDecoding
