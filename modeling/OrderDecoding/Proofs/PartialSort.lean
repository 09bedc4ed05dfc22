/-
# `Proofs.PartialSort` — the best entries by selection and by sorting

`topK` keeps the best `k` entries while it walks through a row.  The usual
way to them is another one: a quick-select brings the best `k` to the front
in some order, the others are cut off, and what is left is sorted
(`topKBySelection`).  Selection and sort come from elsewhere, and of them is
known only what they promise (`Selects`, `Sorts`).

That is enough.  No two entries of a row are level in the order of a ranking,
so a sort has one outcome (`Sorts.eq_ranking`), and a front that comes before
the rest is, once sorted, a start of it (`eq_take_ranking`).
-/
import OrderDecoding.Proofs.Binary64.Lawful
import OrderDecoding.Proofs.Ranking

namespace OrderDecoding
namespace Row

open Score LawfulOrder

variable {α : Type} [Score α]

/-- Entry `i` stands above entry `j`: its score has the higher place, or they
have the same score and `i` is the lower index. -/
def Above (row : List α) (i j : Nat) : Prop :=
  ∃ x y, row[i]? = some x ∧ row[j]? = some y ∧ (ranks x y = false ∨ x = y ∧ i < j)

/-- A sort arranges entries in the order of a ranking. -/
structure Sorts (sort : List (α × Nat) → List (α × Nat)) : Prop where
  perm : ∀ entries, (sort entries).Perm entries
  pairwise : ∀ entries, (sort entries).Pairwise fun a b => outranks a b = true

/-- A quick-select brings an entry to its place; what stands before it does
not come after it, and what stands behind it does not come before it. -/
structure Selects (select : Nat → List (α × Nat) → List (α × Nat)) : Prop where
  perm : ∀ n entries, n < entries.length → (select n entries).Perm entries
  front : ∀ n entries pivot, n < entries.length → (select n entries)[n]? = some pivot →
    ∀ e ∈ (select n entries).take n, outranks e pivot = true
  behind : ∀ n entries pivot, n < entries.length → (select n entries)[n]? = some pivot →
    ∀ e ∈ (select n entries).drop (n + 1), outranks pivot e = true

/-- The indices of the best `k` entries, best first: a quick-select for the
last of them, and a sort of those that it brings to the front. -/
def topKBySelection (select : Nat → List (α × Nat) → List (α × Nat))
    (sort : List (α × Nat) → List (α × Nat)) (row : List α) (k : Nat) : List Nat :=
  let ranked := row.zipIdx
  let k := min k ranked.length
  if k = 0 then []
  else
    let kept := if k < ranked.length then (select (k - 1) ranked).take k else ranked
    (sort kept).map (·.2)

variable [LawfulOrder α] {row : List α} {k : Nat}

/-! ## The indices given -/

theorem Before.above {i j : Nat} (h : Before row i j) : Above row i j := by
  obtain ⟨x, y, hx, hy, hne, hout⟩ := h
  obtain ⟨hyx, htie⟩ := outranks_iff.mp hout
  refine ⟨x, y, hx, hy, ?_⟩
  cases hxy : ranks x y with
  | false => exact Or.inl rfl
  | true => exact Or.inr ⟨ranks_antisymm hxy hyx, Nat.lt_of_le_of_ne (htie hxy) hne⟩

theorem lt_of_mem_topK {i : Nat} (h : i ∈ topK row k) : i < row.length := by
  obtain ⟨x, hx, -⟩ := mem_topK.mp h
  exact (List.getElem?_eq_some_iff.mp hx).1

theorem length_topK : (topK row k).length = min k row.length := by
  rw [topK, List.length_map, best_eq_take, List.length_take, (perm_ranking row).length_eq,
    List.length_zipIdx]

theorem pairwise_topK : (topK row k).Pairwise (Above row) := by
  have hordered : (best row k).Pairwise fun a b => outranks a b = true := by
    rw [best_eq_take]
    exact (pairwise_ranking row).sublist (List.take_sublist k _)
  rw [topK, List.pairwise_map]
  refine (hordered.and nodup_best).imp_of_mem fun {a b} ha hb hab => ?_
  obtain ⟨hout, hne⟩ := hab
  have hx := getElem?_of_mem_best ha
  have hy := getElem?_of_mem_best hb
  refine Before.above ⟨a.1, b.1, hx, hy, fun hindex => hne ?_, hout⟩
  rw [hindex, hy, Option.some.injEq] at hx
  exact Prod.ext hx.symm hindex

/-- Fewer places are the first of more. -/
theorem topK_mono {more : Nat} (h : k ≤ more) : topK row k <+: topK row more := by
  rw [topK, topK, best_eq_take, best_eq_take]
  exact (List.take_prefix_take_left h).map _

/-! ## Selection and sorting -/

/-- There is one arrangement in the order of a ranking. -/
theorem eq_of_perm_of_pairwise {l₁ l₂ : List (α × Nat)} (hperm : l₁.Perm l₂)
    (h₁ : l₁.Pairwise fun a b => outranks a b = true)
    (h₂ : l₂.Pairwise fun a b => outranks a b = true) : l₁ = l₂ :=
  hperm.eq_of_pairwise (fun _ _ _ _ hab hba => outranks_antisymm hab hba) h₁ h₂

/-- A sorted front that comes before all the rest is a start of the
ranking. -/
theorem eq_take_ranking {front rest : List (α × Nat)} (hperm : (front ++ rest).Perm row.zipIdx)
    (hfront : front.Pairwise fun a b => outranks a b = true)
    (hrest : ∀ a ∈ front, ∀ b ∈ rest, outranks a b = true) :
    front = (ranking row).take front.length := by
  have htail : (sorted rest).reverse.Perm rest := (List.reverse_perm _).trans (perm_sorted rest)
  have hall : front ++ (sorted rest).reverse = ranking row := by
    refine eq_of_perm_of_pairwise ?_ ?_ (pairwise_ranking row)
    · calc (front ++ (sorted rest).reverse).Perm (front ++ rest) := htail.append_left front
        _ |>.Perm row.zipIdx := hperm
        _ |>.Perm (ranking row) := (perm_ranking row).symm
    · refine List.pairwise_append.mpr ⟨hfront, List.pairwise_reverse.mpr (pairwise_sorted rest), ?_⟩
      exact fun a ha b hb => hrest a ha b (htail.mem_iff.mp hb)
  rw [← hall, List.take_left]

section

variable {select : Nat → List (α × Nat) → List (α × Nat)}
  {sort : List (α × Nat) → List (α × Nat)}

theorem Sorts.eq_ranking (h : Sorts sort) (row : List α) : sort row.zipIdx = ranking row :=
  eq_of_perm_of_pairwise ((h.perm _).trans (perm_ranking row).symm) (h.pairwise _)
    (pairwise_ranking row)

/-- What a quick-select brings to the front comes before the rest. -/
theorem Selects.outranks_of_mem (h : Selects select) {n : Nat} {entries : List (α × Nat)}
    (hn : n < entries.length) {a b : α × Nat} (ha : a ∈ (select n entries).take (n + 1))
    (hb : b ∈ (select n entries).drop (n + 1)) : outranks a b = true := by
  have hlt : n < (select n entries).length := (h.perm n entries hn).length_eq ▸ hn
  have hpivot := List.getElem?_eq_getElem hlt
  have hbehind := h.behind n entries _ hn hpivot b hb
  rw [List.take_succ_eq_append_getElem hlt, List.mem_append, List.mem_singleton] at ha
  rcases ha with ha | rfl
  · exact outranks_trans (h.front n entries _ hn hpivot a ha) hbehind
  · exact hbehind

/-- The front that a quick-select leaves, once sorted, is the start of the
sort of all. -/
theorem sort_take_select (hselect : Selects select) (hsort : Sorts sort) (hk : 0 < k)
    (hlt : k < row.length) :
    sort ((select (k - 1) row.zipIdx).take k) = (sort row.zipIdx).take k := by
  obtain ⟨n, rfl⟩ : ∃ n, k = n + 1 := ⟨k - 1, by omega⟩
  rw [Nat.add_sub_cancel]
  have hn : n < row.zipIdx.length := by
    rw [List.length_zipIdx]
    omega
  have hperm := hselect.perm n row.zipIdx hn
  set selected := select n row.zipIdx
  have hkept := hsort.perm (selected.take (n + 1))
  have hlength : (sort (selected.take (n + 1))).length = n + 1 := by
    rw [hkept.length_eq, List.length_take, hperm.length_eq]
    omega
  have hall : (sort (selected.take (n + 1)) ++ selected.drop (n + 1)).Perm row.zipIdx := by
    refine (hkept.append_right _).trans ?_
    rwa [List.take_append_drop]
  have hfront := eq_take_ranking hall (hsort.pairwise _) fun a ha b hb =>
    hselect.outranks_of_mem hn (hkept.mem_iff.mp ha) hb
  rw [hlength] at hfront
  rw [hfront, hsort.eq_ranking]

/-- So the two ways to the best entries agree. -/
theorem topKBySelection_eq (hselect : Selects select) (hsort : Sorts sort) (row : List α)
    (k : Nat) : topKBySelection select sort row k = topK row k := by
  have hbest (n : Nat) : (sort row.zipIdx).take n = best row n := by
    rw [hsort.eq_ranking, best_eq_take]
  have hlength : row.zipIdx.length = row.length := List.length_zipIdx
  simp only [topKBySelection, hlength]
  split
  · next hzero =>
    have hnil : (topK row k).length = 0 := by rw [length_topK, hzero]
    exact (List.eq_nil_of_length_eq_zero hnil).symm
  · split
    · have hk : min k row.length = k := by omega
      rw [hk, sort_take_select hselect hsort (by omega) (by omega), hbest, topK]
    · have hall : (sort row.zipIdx).take k = sort row.zipIdx := by
        refine List.take_of_length_le ?_
        rw [(hsort.perm _).length_eq, hlength]
        omega
      rw [← hall, hbest, topK]

omit [LawfulOrder α] in
/-- A sort is a quick-select too. -/
theorem Sorts.selects (h : Sorts sort) : Selects fun _ => sort := by
  have hsplit {n : Nat} {entries : List (α × Nat)} {pivot : α × Nat}
      (hpivot : (sort entries)[n]? = some pivot) :
      ((sort entries).take n ++ pivot :: (sort entries).drop (n + 1)).Pairwise
        fun a b => outranks a b = true := by
    obtain ⟨hn, rfl⟩ := List.getElem?_eq_some_iff.mp hpivot
    rw [← List.drop_eq_getElem_cons hn, List.take_append_drop]
    exact h.pairwise entries
  refine ⟨fun _ entries _ => h.perm entries, fun n entries pivot _ hpivot e he => ?_,
    fun n entries pivot _ hpivot e he => ?_⟩
  · exact (List.pairwise_append.mp (hsplit hpivot)).2.2 e he pivot List.mem_cons_self
  · exact (List.pairwise_cons.mp (List.pairwise_append.mp (hsplit hpivot)).2.1).1 e he

end

/-- The indices of the best entries are a partial sort of the row: as many
as there are places, distinct, each above the next and above all that are
left out.  So more places go on where fewer end, and a quick-select with a
sort of its front gives the same. -/
theorem topK_is_partial_sort (row : List α) (k : Nat) :
    (topK row k).length = min k row.length ∧
    (topK row k).Nodup ∧
    (∀ i ∈ topK row k, i < row.length) ∧
    (topK row k).Pairwise (Above row) ∧
    (∀ j < row.length, j ∉ topK row k → ∀ i ∈ topK row k, Above row i j) ∧
    (∀ more, k ≤ more → topK row k <+: topK row more) ∧
    ∀ select sort, Selects select → Sorts sort →
      topKBySelection select sort row k = topK row k ∧
      (0 < k → k < row.length →
        sort ((select (k - 1) row.zipIdx).take k) = (sort row.zipIdx).take k) := by
  refine ⟨length_topK, nodup_topK, fun i => lt_of_mem_topK, pairwise_topK, ?_,
    fun more => topK_mono, ?_⟩
  · intro j hj hout i hi
    exact ((before_of_not_mem_topK hj hout).2 i hi).above
  · intro select sort hselect hsort
    exact ⟨topKBySelection_eq hselect hsort row k, sort_take_select hselect hsort⟩

/-- Two scores that tie, both zeros, one entry that is no number and one that
is masked. -/
def mixedRow : List Float := [0.5, 2, 0.0 / 0.0, 2, -0.0, 0, negInf]

theorem sorts_sorted : Sorts fun entries : List (α × Nat) => (sorted entries).reverse where
  perm entries := (List.reverse_perm _).trans (perm_sorted entries)
  pairwise entries := List.pairwise_reverse.mpr (pairwise_sorted entries)

/-- The entry that is no number has no sign, so it comes first (with a sign it
would come last); then come the scores that tie by index, and of the zeros the
one with a sign comes last. -/
theorem mixedRow_partial_sort :
    Sorts (fun entries : List (Float × Nat) => (sorted entries).reverse) ∧
    Selects (fun _ (entries : List (Float × Nat)) => (sorted entries).reverse) ∧
    topK mixedRow 3 = [2, 1, 3] ∧
    topKBySelection (fun _ entries => (sorted entries).reverse)
      (fun entries => (sorted entries).reverse) mixedRow 3 = [2, 1, 3] ∧
    topK mixedRow 6 = [2, 1, 3, 0, 5, 4] ∧
    [2, 1, 3] <+: [2, 1, 3, 0, 5, 4] ∧
    Above mixedRow 5 4 ∧ Above mixedRow 4 6 := by
  have hthree : topK mixedRow 3 = [2, 1, 3] := by decide +kernel
  have hsix : topK mixedRow 6 = [2, 1, 3, 0, 5, 4] := by decide +kernel
  obtain ⟨-, -, -, -, -, hmono, hselection⟩ := topK_is_partial_sort mixedRow 3
  obtain ⟨-, -, -, habove, hout, -, -⟩ := topK_is_partial_sort mixedRow 6
  have hsorts := sorts_sorted (α := Float)
  have hagree := (hselection _ _ hsorts.selects hsorts).1
  have hmore := hmono 6 (by decide)
  rw [hthree] at hagree hmore
  rw [hsix] at hmore habove hout
  refine ⟨hsorts, hsorts.selects, hthree, hagree, hsix, hmore, ?_, ?_⟩
  · exact List.pairwise_iff_getElem.mp habove 4 5 (by decide) (by decide) (by decide)
  · exact hout 6 (by decide) (by decide) 4 (by decide)

end Row
end OrderDecoding
