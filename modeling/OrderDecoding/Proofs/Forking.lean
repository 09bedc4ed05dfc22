/-
# `Proofs.Forking` — what workers change

Pieces that all go well give the same, whoever works on them
(`forkJoin_eq_ok_iff`).  Of pieces that fail, the one that comes in first is
reported, and when a piece comes in is its RANK: its place if one worker goes
through them, and with several its place in their schedule, behind which the
pieces that the schedule does not name follow from the front.  So what is true
of one worker is true of several with ranks for places
(`forkJoin_eq_error_iff`), and workers matter only where two pieces fail in
different ways (`forkJoin_eq_mapM`).

The same goes for chains side by side, one step at a time: each of them goes the
way it would go alone (`takeSteps_forkJoin_eq_ok_iff`), and the failure of all is
that of the one that fails at the earliest step, and of those that fail there, of
the one that comes in first (`failsAt_forkJoin_iff`).
-/
import Mathlib.Data.Finset.Max
import OrderDecoding.Proofs.Runs

namespace OrderDecoding

variable {α β γ ε σ : Type}

/-- The first that a search finds is the one whose place is the least. -/
theorem findSome?_eq_some_iff_idxOf {l : List Nat} {g : Nat → Option β} {b : β} :
    l.findSome? g = some b ↔
      ∃ a ∈ l, g a = some b ∧ ∀ a', l.idxOf a' < l.idxOf a → g a' = none := by
  constructor
  · intro h
    obtain ⟨l₁, a, l₂, rfl, ha, hbefore⟩ := List.findSome?_eq_some_iff.mp h
    have hplace : (l₁ ++ a :: l₂).idxOf a = l₁.length := by
      rw [List.idxOf_append_of_notMem, List.idxOf_cons_self, Nat.add_zero]
      intro hmem
      rw [hbefore a hmem] at ha
      cases ha
    refine ⟨a, by simp, ha, fun a' hlt => hbefore a' ?_⟩
    by_contra hnot
    rw [hplace, List.idxOf_append_of_notMem hnot] at hlt
    exact Nat.not_lt.mpr (Nat.le_add_right _ _) hlt
  · rintro ⟨a, hmem, ha, hbefore⟩
    obtain ⟨l₁, l₂, rfl, hnot⟩ := List.eq_append_cons_of_mem hmem
    refine List.findSome?_eq_some_iff.mpr ⟨l₁, a, l₂, rfl, ha, fun x hx => hbefore x ?_⟩
    rw [List.idxOf_append_of_mem hx, List.idxOf_append_of_notMem hnot, List.idxOf_cons_self]
    exact List.idxOf_lt_length_of_mem hx

namespace Workers

/-! ## Ranks -/

/-- The order in which so many pieces come in. -/
def order (n : Nat) : Workers → List Nat
  | .one => List.range n
  | .several early => early n ++ List.range n

/-- When a piece comes in. -/
def rank (w : Workers) (n i : Nat) : Nat := (w.order n).idxOf i

/-- One worker goes through the pieces from the front. -/
theorem rank_one {n i : Nat} (h : i < n) : Workers.one.rank n i = i := by
  have hi : i < (List.range n).length := by rwa [List.length_range]
  have hplace := List.nodup_range.idxOf_getElem i hi
  rwa [List.getElem_range] at hplace

theorem rank_one_lt_iff {n i j : Nat} (h : i < n) :
    Workers.one.rank n j < Workers.one.rank n i ↔ j < i := by
  rw [rank_one h]
  rcases Nat.lt_or_ge j n with hj | hj
  · rw [rank_one hj]
  · have hlast : Workers.one.rank n j = n :=
      (List.idxOf_of_notMem (mt List.mem_range.mp (Nat.not_lt.mpr hj))).trans List.length_range
    omega

theorem mem_order {n i : Nat} (w : Workers) (h : i < n) : i ∈ w.order n := by
  cases w with
  | one => exact List.mem_range.mpr h
  | several early => exact List.mem_append_right _ (List.mem_range.mpr h)

/-- Some piece comes in before all others. -/
theorem exists_first (w : Workers) {n : Nat} (h : 0 < n) :
    ∃ i < n, ∀ j < n, w.rank n i ≤ w.rank n j := by
  obtain ⟨i, hi, hleast⟩ :=
    (Finset.range n).exists_min_image (w.rank n) ⟨0, Finset.mem_range.mpr h⟩
  exact ⟨i, Finset.mem_range.mp hi, fun j hj => hleast j (Finset.mem_range.mpr hj)⟩

/-- Any piece can come in before all others. -/
theorem rank_several_self (n i : Nat) : (Workers.several fun _ => [i]).rank n i = 0 :=
  List.idxOf_cons_self

/-! ## Pieces -/

variable {w : Workers} {f g : β → Except ε γ} {items : List β}

theorem failure?_eq_some_iff {i : Nat} {e : ε} :
    failure? f items i = some e ↔ ∃ x, items[i]? = some x ∧ f x = .error e := by
  unfold failure?
  cases hx : items[i]? with
  | none => simp
  | some x => cases hf : f x <;> simp [hf]

theorem failure?_eq_none_iff {i : Nat} :
    failure? f items i = none ↔ ∀ x, items[i]? = some x → ∃ z, f x = .ok z := by
  unfold failure?
  cases hx : items[i]? with
  | none => simp
  | some x => cases hf : f x <;> simp [hf]

theorem findSome?_range_eq_some_iff {e : ε} :
    (List.range items.length).findSome? (failure? f items) = some e ↔ items.mapM f = .error e := by
  rw [mapM_eq_error_iff, findSome?_eq_some_iff_idxOf]
  simp only [failure?_eq_some_iff, failure?_eq_none_iff]
  constructor
  · rintro ⟨i, hi, ⟨x, hx, hfail⟩, hbefore⟩
    refine ⟨i, x, hx, hfail, fun j y hj hy => hbefore j ?_ y hy⟩
    exact (rank_one_lt_iff (List.mem_range.mp hi)).mpr hj
  · rintro ⟨i, x, hx, hfail, hbefore⟩
    have hi : i < items.length := (List.getElem?_eq_some_iff.mp hx).1
    refine ⟨i, List.mem_range.mpr hi, ⟨x, hx, hfail⟩, fun j hj y hy => hbefore j y ?_ hy⟩
    exact (rank_one_lt_iff hi).mp hj

/-- The failure that is reported is the first in the order in which the pieces
come in. -/
theorem findSome?_order_eq_some_iff {e : ε} :
    (w.order items.length).findSome? (failure? f items) = some e ↔
      w.forkJoin items f = .error e := by
  cases w with
  | one => exact findSome?_range_eq_some_iff
  | several early =>
    rw [order, List.findSome?_append, forkJoin]
    cases (early items.length).findSome? (failure? f items) with
    | none => exact findSome?_range_eq_some_iff
    | some e' => simp

/-- Of pieces that fail, the one that comes in first is reported. -/
theorem forkJoin_eq_error_iff {e : ε} :
    w.forkJoin items f = .error e ↔ ∃ (i : Nat) (x : β), items[i]? = some x ∧ f x = .error e ∧
      ∀ (j : Nat) (y : β), w.rank items.length j < w.rank items.length i →
        items[j]? = some y → ∃ z, f y = .ok z := by
  rw [← findSome?_order_eq_some_iff, findSome?_eq_some_iff_idxOf]
  simp only [failure?_eq_some_iff, failure?_eq_none_iff]
  constructor
  · rintro ⟨i, -, ⟨x, hx, hfail⟩, hbefore⟩
    exact ⟨i, x, hx, hfail, fun j y hj hy => hbefore j hj y hy⟩
  · rintro ⟨i, x, hx, hfail, hbefore⟩
    exact ⟨i, w.mem_order (List.getElem?_eq_some_iff.mp hx).1, ⟨x, hx, hfail⟩,
      fun j hj y hy => hbefore j y hj hy⟩

/-- Pieces that all go well give the same, whoever works on them. -/
theorem forkJoin_eq_ok_iff {results : List γ} :
    w.forkJoin items f = .ok results ↔ items.mapM f = .ok results := by
  cases w with
  | one => exact Iff.rfl
  | several early =>
    rw [forkJoin]
    split
    · next e hfound =>
      obtain ⟨i, -, hi⟩ := List.exists_of_findSome?_eq_some hfound
      obtain ⟨x, hx, hfail⟩ := failure?_eq_some_iff.mp hi
      refine iff_of_false nofun fun hall => ?_
      obtain ⟨y, -, hy⟩ := exists_mem_zip (forall₂_of_mapM hall) (List.mem_of_getElem? hx)
      rw [hfail] at hy
      cases hy
    · exact Iff.rfl

/-- Workers go well together where each piece goes well. -/
theorem exists_forkJoin (h : ∀ x ∈ items, ∃ y, f x = .ok y) :
    ∃ results, w.forkJoin items f = .ok results := by
  obtain ⟨results, hresults⟩ := exists_mapM h
  exact ⟨results, forkJoin_eq_ok_iff.mpr hresults⟩

theorem exists_of_forkJoin_eq_error {e : ε} (h : w.forkJoin items f = .error e) :
    ∃ x ∈ items, f x = .error e := by
  obtain ⟨i, x, hx, hfail, -⟩ := forkJoin_eq_error_iff.mp h
  exact ⟨x, List.mem_of_getElem? hx, hfail⟩

theorem forkJoin_congr (h : ∀ x ∈ items, f x = g x) :
    w.forkJoin items f = w.forkJoin items g := by
  have hpiece : failure? f items = failure? g items := by
    funext i
    unfold failure?
    cases hx : items[i]? with
    | none => rfl
    | some x => rw [Option.map_some, Option.map_some, h x (List.mem_of_getElem? hx)]
  cases w with
  | one => exact mapM_congr h
  | several early => rw [forkJoin, forkJoin, hpiece, mapM_congr h]

theorem forkJoin_map (h : α → β) (items : List α) :
    w.forkJoin (items.map h) f = w.forkJoin items fun x => f (h x) := by
  have hpiece : failure? f (items.map h) = failure? (fun x => f (h x)) items := by
    funext i
    unfold failure?
    rw [List.getElem?_map, Option.map_map]
    rfl
  cases w with
  | one => exact List.mapM_map
  | several early => rw [forkJoin, forkJoin, List.length_map, hpiece, List.mapM_map]; rfl

/-- One worker reports the foremost of the pieces that fail. -/
theorem forkJoin_one_eq_error_iff {e : ε} :
    Workers.one.forkJoin items f = .error e ↔ ∃ (i : Nat) (x : β), items[i]? = some x ∧
      f x = .error e ∧ ∀ (j : Nat) (y : β), j < i → items[j]? = some y → ∃ z, f y = .ok z :=
  mapM_eq_error_iff

/-- Of pieces that fail, several workers may report any. -/
theorem exists_forkJoin_eq_error {x : β} (hx : x ∈ items) {e : ε} (hfail : f x = .error e) :
    ∃ early, (Workers.several early).forkJoin items f = .error e := by
  obtain ⟨i, hi⟩ := List.mem_iff_getElem?.mp hx
  refine ⟨fun _ => [i], forkJoin_eq_error_iff.mpr ⟨i, x, hi, hfail, fun j y hj => ?_⟩⟩
  rw [rank_several_self] at hj
  exact absurd hj (Nat.not_lt_zero _)

/-- Workers matter only where two pieces fail in different ways. -/
theorem forkJoin_eq_mapM
    (h : ∀ x ∈ items, ∀ y ∈ items, ∀ e e', f x = .error e → f y = .error e' → e = e') :
    w.forkJoin items f = items.mapM f := by
  cases hall : w.forkJoin items f with
  | ok results => exact (forkJoin_eq_ok_iff.mp hall).symm
  | error e =>
    obtain ⟨x, hx, hfail⟩ := exists_of_forkJoin_eq_error hall
    cases hone : items.mapM f with
    | ok results =>
      rw [forkJoin_eq_ok_iff.mpr hone] at hall
      cases hall
    | error e' =>
      obtain ⟨y, hy, hfail'⟩ := exists_of_forkJoin_eq_error (w := .one) hone
      rw [h x hx y hy e e' hfail hfail']

/-- With one piece there is nothing to choose from. -/
theorem forkJoin_singleton (x : β) : w.forkJoin [x] f = (f x).map fun y => [y] := by
  rw [forkJoin_eq_mapM]
  · rw [List.mapM_cons, List.mapM_nil]
    cases f x <;> rfl
  · intro y hy z hz e e' he he'
    obtain rfl := List.mem_singleton.mp hy
    obtain rfl := List.mem_singleton.mp hz
    exact Except.error.inj (he.symm.trans he')

end Workers

/-! ## Chains side by side -/

section

variable {w : Workers} {step : σ → Except ε σ} {n : Nat} {xs ys : List σ}

/-- Chains side by side go the way each of them goes alone. -/
theorem takeSteps_forkJoin_eq_ok_iff :
    takeSteps (fun xs => w.forkJoin xs step) n xs = .ok ys ↔
      List.Forall₂ (fun x y => takeSteps step n x = .ok y) xs ys := by
  induction n generalizing xs with
  | zero =>
    constructor
    · intro h
      cases h
      exact List.forall₂_same.mpr fun _ _ => rfl
    · intro h
      refine congrArg Except.ok (List.forall₂_eq_eq_eq ▸ h.imp ?_)
      intro x y hxy
      exact Except.ok.inj hxy
  | succ n ih =>
    calc takeSteps (fun xs => w.forkJoin xs step) (n + 1) xs = .ok ys
        ↔ ∃ ms, w.forkJoin xs step = .ok ms ∧
            takeSteps (fun xs => w.forkJoin xs step) n ms = .ok ys := bind_eq_ok_iff
      _ ↔ ∃ ms, List.Forall₂ (fun x m => step x = .ok m) xs ms ∧
            List.Forall₂ (fun m y => takeSteps step n m = .ok y) ms ys :=
          exists_congr fun ms => and_congr
            (Workers.forkJoin_eq_ok_iff.trans ⟨forall₂_of_mapM, mapM_of_forall₂⟩) ih
      _ ↔ List.Forall₂ (fun x y => ∃ m, step x = .ok m ∧ takeSteps step n m = .ok y) xs ys :=
          forall₂_trans
      _ ↔ List.Forall₂ (fun x y => takeSteps step (n + 1) x = .ok y) xs ys := by
          have hstep (x y : σ) : takeSteps step (n + 1) x = .ok y ↔
              ∃ m, step x = .ok m ∧ takeSteps step n m = .ok y := bind_eq_ok_iff
          simp only [hstep]

/-- An invariant of one chain is an invariant of each of many. -/
theorem takeSteps_forkJoin_invariant (P : Nat → σ → Prop)
    (hstep : ∀ i x x', P i x → step x = .ok x' → P (i + 1) x')
    (hxs : ∀ x ∈ xs, P 0 x) (h : takeSteps (fun xs => w.forkJoin xs step) n xs = .ok ys) :
    ∀ y ∈ ys, P n y := by
  intro y hy
  obtain ⟨x, hx, hpath⟩ := exists_of_mem_forall₂ (takeSteps_forkJoin_eq_ok_iff.mp h) hy
  exact takeSteps_invariant P (fun i x x' _ => hstep i x x') (hxs x hx) hpath

/-- Chains side by side fail with the one that fails first: at the earliest
step, and of those that fail there the one that comes in first. -/
theorem failsAt_forkJoin_iff {k : Nat} {e : ε} :
    FailsAt (fun xs => w.forkJoin xs step) k xs e ↔
      ∃ (i : Nat) (x : σ), xs[i]? = some x ∧ FailsAt step k x e ∧
        ∀ (j : Nat) (y : σ) (k' : Nat) (e' : ε), xs[j]? = some y → FailsAt step k' y e' →
          k < k' ∨ k = k' ∧ w.rank xs.length i ≤ w.rank xs.length j := by
  constructor
  · rintro ⟨ys, hys, hfail⟩
    obtain ⟨hlength, hpath⟩ := forall₂_iff_getElem?.mp (takeSteps_forkJoin_eq_ok_iff.mp hys)
    obtain ⟨i, y, hy, herror, hbefore⟩ := Workers.forkJoin_eq_error_iff.mp hfail
    obtain ⟨x, hx⟩ := exists_getElem? hlength.symm hy
    refine ⟨i, x, hx, ⟨y, hpath i x y hx hy, herror⟩, ?_⟩
    intro j x' k' e' hx' hfail'
    obtain ⟨y', hy'⟩ := exists_getElem? hlength hx'
    have hgoes : takeSteps step k x' = .ok y' := hpath j x' y' hx' hy'
    rcases Nat.lt_or_eq_of_le (hfail'.le hgoes) with hlt | rfl
    · exact Or.inl hlt
    · refine Or.inr ⟨rfl, Nat.le_of_not_lt fun hji => ?_⟩
      obtain ⟨z, hz⟩ := hbefore j y' (hlength ▸ hji) hy'
      obtain ⟨v, hv, herror'⟩ := hfail'
      obtain rfl : y' = v := Except.ok.inj (hgoes.symm.trans hv)
      rw [hz] at herror'
      cases herror'
  · rintro ⟨i, x, hx, ⟨y, hy, herror⟩, hleast⟩
    -- a chain that stopped before step `k` would have failed before the least one
    have hgoes : ∀ x' ∈ xs, ∃ y', takeSteps step k x' = .ok y' := by
      intro x' hx'
      obtain ⟨j, hj⟩ := List.mem_iff_getElem?.mp hx'
      by_contra hstopped
      obtain ⟨e', he'⟩ := eq_error_of_not_ok hstopped
      obtain ⟨k', hk', hfail'⟩ := takeSteps_eq_error_iff.mp he'
      rcases hleast j x' k' e' hj hfail' with hlt | ⟨rfl, -⟩
      · exact Nat.lt_asymm hk' hlt
      · exact Nat.lt_irrefl _ hk'
    obtain ⟨ys, hys⟩ := exists_mapM hgoes
    have hpaths := forall₂_of_mapM hys
    obtain ⟨hlength, hpath⟩ := forall₂_iff_getElem?.mp hpaths
    obtain ⟨y', hy'⟩ := exists_getElem? hlength hx
    obtain rfl : y = y' := Except.ok.inj (hy.symm.trans (hpath i x y' hx hy'))
    refine ⟨ys, takeSteps_forkJoin_eq_ok_iff.mpr hpaths,
      Workers.forkJoin_eq_error_iff.mpr ⟨i, y, hy', herror, ?_⟩⟩
    intro j v hj hv
    obtain ⟨x', hx'⟩ := exists_getElem? hlength.symm hv
    by_contra hstopped
    obtain ⟨e', he'⟩ := eq_error_of_not_ok hstopped
    rcases hleast j x' k e' hx' ⟨v, hpath j x' v hx' hv, he'⟩ with hlt | ⟨-, hle⟩
    · exact Nat.lt_irrefl _ hlt
    · exact absurd hj (Nat.not_lt.mpr (hlength ▸ hle))

end

end OrderDecoding
