/-
# `Proofs.Runs` — runs that may fail

A decode is a chain of steps each of which may fail.  Here is how a chain
that ended well is taken apart: into the parts of one step
(`bind_eq_ok_iff`), into its members (`forall₂_of_mapM`), and into the
steps themselves, by an invariant that each step carries on
(`takeSteps_invariant`).  `takeSteps_total` is the other direction: a chain
of steps none of which can fail does not fail.

A chain that failed did so at one step (`takeSteps_eq_error_iff`).

Some chains cannot fail: changes that each set one thing and leave the others
alone.  What such a chain leaves of a thing is its last change
(`holds_foldl_iff`).
-/
import Mathlib.Data.List.Forall2
import Mathlib.Data.List.Induction
import OrderDecoding.Position

namespace OrderDecoding

variable {α β ε σ : Type}

/-! ## Single steps -/

theorem bind_eq_ok_iff {x : Except ε α} {f : α → Except ε β} {b : β} :
    (x >>= f) = .ok b ↔ ∃ a, x = .ok a ∧ f a = .ok b := by
  cases x with
  | error e =>
    constructor
    · intro h
      cases h
    · rintro ⟨a, h, -⟩
      cases h
  | ok a => exact ⟨fun h => ⟨a, rfl, h⟩, fun ⟨_, rfl, h⟩ => h⟩

theorem bind_eq_error_iff {x : Except ε α} {f : α → Except ε β} {e : ε} :
    (x >>= f) = .error e ↔ x = .error e ∨ ∃ a, x = .ok a ∧ f a = .error e := by
  cases x with
  | error e' =>
    constructor
    · intro h
      cases h
      exact Or.inl rfl
    · rintro (h | ⟨a, h, -⟩)
      · cases h
        rfl
      · cases h
  | ok a =>
    constructor
    · intro h
      exact Or.inr ⟨a, rfl, h⟩
    · rintro (h | ⟨a', h, hf⟩)
      · cases h
      · cases h
        exact hf

theorem eq_error_of_not_ok {x : Except ε α} (h : ¬ ∃ a, x = .ok a) : ∃ e, x = .error e := by
  cases x with
  | error e => exact ⟨e, rfl⟩
  | ok a => exact absurd ⟨a, rfl⟩ h

/-- What comes after a step matters only for the value that the step gives. -/
theorem bind_congr_ok {x : Except ε α} {f g : α → Except ε β} (h : ∀ a, x = .ok a → f a = g a) :
    (x >>= f) = (x >>= g) := by
  cases x with
  | error e => rfl
  | ok a => exact h a rfl

/-- A traversal that ends well gave one value for each member. -/
theorem forall₂_of_mapM {f : α → Except ε β} {xs : List α} {ys : List β}
    (h : xs.mapM f = .ok ys) : List.Forall₂ (fun x y => f x = .ok y) xs ys := by
  induction xs generalizing ys with
  | nil =>
    cases h
    exact .nil
  | cons x xs ih =>
    rw [List.mapM_cons] at h
    obtain ⟨y, hy, h⟩ := bind_eq_ok_iff.mp h
    obtain ⟨rest, hrest, h⟩ := bind_eq_ok_iff.mp h
    cases h
    exact .cons hy (ih hrest)

theorem mapM_of_forall₂ {f : α → Except ε β} {xs : List α} {ys : List β}
    (h : List.Forall₂ (fun x y => f x = .ok y) xs ys) : xs.mapM f = .ok ys := by
  induction h with
  | nil => rfl
  | cons hy _ ih => rw [List.mapM_cons, hy, ih]; rfl

theorem mapM_congr {f g : α → Except ε β} {xs : List α} (h : ∀ x ∈ xs, f x = g x) :
    xs.mapM f = xs.mapM g := by
  induction xs with
  | nil => rfl
  | cons x xs ih =>
    rw [List.mapM_cons, List.mapM_cons, h x List.mem_cons_self,
      ih fun y hy => h y (List.mem_cons_of_mem x hy)]

/-- A traversal ends well when it does at each member. -/
theorem exists_mapM {f : α → Except ε β} {xs : List α} (h : ∀ x ∈ xs, ∃ y, f x = .ok y) :
    ∃ ys, xs.mapM f = .ok ys := by
  induction xs with
  | nil => exact ⟨[], rfl⟩
  | cons x xs ih =>
    obtain ⟨y, hy⟩ := h x List.mem_cons_self
    obtain ⟨ys, hys⟩ := ih fun z hz => h z (List.mem_cons_of_mem x hz)
    exact ⟨y :: ys, by rw [List.mapM_cons, hy, hys]; rfl⟩

theorem exists_of_mem_forall₂ {R : α → β → Prop} {xs : List α} {ys : List β}
    (h : List.Forall₂ R xs ys) {y : β} (hy : y ∈ ys) : ∃ x ∈ xs, R x y := by
  induction h with
  | nil => cases hy
  | cons hxy _ ih =>
    rcases List.mem_cons.mp hy with rfl | hy
    · exact ⟨_, List.mem_cons_self, hxy⟩
    · obtain ⟨x, hx, hR⟩ := ih hy
      exact ⟨x, List.mem_cons_of_mem _ hx, hR⟩

/-- Each value of a traversal is that of some member. -/
theorem exists_of_mem_mapM {f : α → Except ε β} {xs : List α} {ys : List β}
    (h : xs.mapM f = .ok ys) {y : β} (hy : y ∈ ys) : ∃ x ∈ xs, f x = .ok y :=
  exists_of_mem_forall₂ (forall₂_of_mapM h) hy

/-- A traversal fails with the first member that does. -/
theorem mapM_eq_error_iff {f : α → Except ε β} {xs : List α} {e : ε} :
    xs.mapM f = .error e ↔ ∃ (i : Nat) (x : α), xs[i]? = some x ∧ f x = .error e ∧
      ∀ (j : Nat) (y : α), j < i → xs[j]? = some y → ∃ z, f y = .ok z := by
  induction xs with
  | nil =>
    constructor
    · intro h
      cases h
    · rintro ⟨i, x, hx, -⟩
      cases hx
  | cons x xs ih =>
    rw [List.mapM_cons, bind_eq_error_iff]
    constructor
    · rintro (hx | ⟨y, hy, hrest⟩)
      · exact ⟨0, x, rfl, hx, fun j _ hj => absurd hj (Nat.not_lt_zero j)⟩
      · rcases bind_eq_error_iff.mp hrest with hrest | ⟨ys, -, h⟩
        · obtain ⟨i, z, hz, hfail, hbefore⟩ := ih.mp hrest
          refine ⟨i + 1, z, hz, hfail, ?_⟩
          intro j w hj hw
          cases j with
          | zero =>
            cases hw
            exact ⟨y, hy⟩
          | succ j => exact hbefore j w (Nat.lt_of_succ_lt_succ hj) hw
        · cases h
    · rintro ⟨i, z, hz, hfail, hbefore⟩
      cases i with
      | zero =>
        cases hz
        exact Or.inl hfail
      | succ i =>
        obtain ⟨y, hy⟩ := hbefore 0 x (Nat.succ_pos i) rfl
        refine Or.inr ⟨y, hy, bind_eq_error_iff.mpr (Or.inl (ih.mpr ⟨i, z, hz, hfail, ?_⟩))⟩
        intro j w hj hw
        exact hbefore (j + 1) w (Nat.succ_lt_succ hj) hw

theorem getElem?_range_iff {n i k : Nat} : (List.range n)[i]? = some k ↔ i < n ∧ i = k := by
  rw [List.getElem?_eq_some_iff]
  simp

theorem getElem?_zipIdx_iff {xs : List α} {i : Nat} {entry : α × Nat} :
    xs.zipIdx[i]? = some entry ↔ xs[i]? = some entry.1 ∧ entry.2 = i := by
  obtain ⟨x, j⟩ := entry
  rw [List.getElem?_zipIdx, Option.map_eq_some_iff, Nat.zero_add]
  constructor
  · rintro ⟨_, hx, hpair⟩
    cases hpair
    exact ⟨hx, rfl⟩
  · rintro ⟨hx, rfl⟩
    exact ⟨x, hx, rfl⟩

theorem mapM_range_eq_error_iff {f : Nat → Except ε β} {n : Nat} {e : ε} :
    (List.range n).mapM f = .error e ↔
      ∃ i < n, f i = .error e ∧ ∀ j < i, ∃ y, f j = .ok y := by
  simp only [mapM_eq_error_iff, getElem?_range_iff]
  constructor
  · rintro ⟨i, _, ⟨hi, rfl⟩, hfail, hbefore⟩
    exact ⟨i, hi, hfail, fun j hj => hbefore j j hj ⟨Nat.lt_trans hj hi, rfl⟩⟩
  · rintro ⟨i, hi, hfail, hbefore⟩
    refine ⟨i, i, ⟨hi, rfl⟩, hfail, ?_⟩
    rintro j _ hj ⟨-, rfl⟩
    exact hbefore j hj

/-- What each step of a traversal keeps of its member, the traversal keeps of
all. -/
theorem map_eq_of_mapM {γ : Type} {f : α → Except ε β} {g : α → γ} {k : β → γ}
    (hstep : ∀ x y, f x = .ok y → k y = g x) {xs : List α} {ys : List β}
    (h : xs.mapM f = .ok ys) : ys.map k = xs.map g := by
  have h₂ := forall₂_of_mapM h
  clear h
  induction h₂ with
  | nil => rfl
  | cons hxy _ ih => rw [List.map_cons, List.map_cons, hstep _ _ hxy, ih]

/-- Each member of a traversal stands beside its value. -/
theorem exists_mem_zip {R : α → β → Prop} {xs : List α} {ys : List β} (h : List.Forall₂ R xs ys)
    {x : α} (hx : x ∈ xs) : ∃ y, (x, y) ∈ xs.zip ys ∧ R x y := by
  induction h with
  | nil => cases hx
  | @cons a b _ _ hab _ ih =>
    rcases List.mem_cons.mp hx with rfl | hx
    · exact ⟨b, List.mem_cons_self, hab⟩
    · obtain ⟨y, hmem, hy⟩ := ih hx
      exact ⟨y, List.mem_cons_of_mem _ hmem, hy⟩

theorem mem_mapM_iff {f : α → Except ε β} {xs : List α} {ys : List β} (h : xs.mapM f = .ok ys)
    {y : β} : y ∈ ys ↔ ∃ x ∈ xs, f x = .ok y := by
  refine ⟨exists_of_mem_mapM h, fun ⟨x, hx, hy⟩ => ?_⟩
  obtain ⟨y', hmem, hy'⟩ := exists_mem_zip (forall₂_of_mapM h) hx
  obtain rfl : y = y' := Except.ok.inj (hy.symm.trans hy')
  exact (List.of_mem_zip hmem).2

/-- Checks go through the members as a traversal does. -/
theorem forM_eq_mapM (f : α → Except ε Unit) (xs : List α) :
    xs.forM f = xs.mapM f >>= fun _ => .ok () := by
  induction xs with
  | nil => rfl
  | cons x xs ih =>
    rw [List.mapM_cons]
    change (f x >>= fun _ => xs.forM f) = _
    rw [ih]
    cases f x with
    | error e => rfl
    | ok _ => cases xs.mapM f <;> rfl

/-- Checks all went well if they went well one by one. -/
theorem forM_eq_ok_iff {f : α → Except ε Unit} {xs : List α} :
    xs.forM f = .ok () ↔ ∀ x ∈ xs, f x = .ok () := by
  rw [forM_eq_mapM, bind_eq_ok_iff]
  constructor
  · rintro ⟨ys, hys, -⟩ x hx
    obtain ⟨⟨⟩, -, hok⟩ := exists_mem_zip (forall₂_of_mapM hys) hx
    exact hok
  · intro h
    obtain ⟨ys, hys⟩ := exists_mapM fun x hx => ⟨(), h x hx⟩
    exact ⟨ys, hys, rfl⟩

/-- Checks fail with the first that does. -/
theorem forM_eq_error_iff {f : α → Except ε Unit} {xs : List α} {e : ε} :
    xs.forM f = .error e ↔ ∃ (i : Nat) (x : α), xs[i]? = some x ∧ f x = .error e ∧
      ∀ (j : Nat) (y : α), j < i → xs[j]? = some y → f y = .ok () := by
  rw [forM_eq_mapM, bind_eq_error_iff, mapM_eq_error_iff]
  constructor
  · rintro (⟨i, x, hx, hfail, hbefore⟩ | ⟨ys, -, h⟩)
    · exact ⟨i, x, hx, hfail, fun j y hj hy => (hbefore j y hj hy).elim fun _ h => h⟩
    · cases h
  · rintro ⟨i, x, hx, hfail, hbefore⟩
    exact Or.inl ⟨i, x, hx, hfail, fun j y hj hy => ⟨(), hbefore j y hj hy⟩⟩

/-! ## Chains of steps -/

/-- The last step of a chain. -/
theorem takeSteps_succ (step : σ → Except ε σ) (n : Nat) (s : σ) :
    takeSteps step (n + 1) s = takeSteps step n s >>= step := by
  induction n generalizing s with
  | zero =>
    change (step s >>= fun s' => .ok s') = step s
    cases step s <;> rfl
  | succ n ih =>
    change (step s >>= takeSteps step (n + 1)) = (step s >>= takeSteps step n) >>= step
    cases h : step s with
    | error e => rfl
    | ok s' => exact ih s'

/-- A chain of steps in two parts. -/
theorem takeSteps_add (step : σ → Except ε σ) (m n : Nat) (s : σ) :
    takeSteps step (m + n) s = takeSteps step m s >>= takeSteps step n := by
  induction m generalizing s with
  | zero =>
    rw [Nat.zero_add]
    rfl
  | succ m ih =>
    rw [Nat.add_right_comm]
    change (step s >>= takeSteps step (m + n)) = (step s >>= takeSteps step m) >>= takeSteps step n
    cases step s with
    | error e => rfl
    | ok s' => exact ih s'

/-- Steps that do the same wherever the chain comes to make the same
chain. -/
theorem takeSteps_congr {step step' : σ → Except ε σ} {n : Nat} {s : σ}
    (h : ∀ k < n, ∀ t, takeSteps step k s = .ok t → step t = step' t) :
    takeSteps step n s = takeSteps step' n s := by
  induction n with
  | zero => rfl
  | succ n ih =>
    rw [takeSteps_succ, takeSteps_succ, ← ih fun k hk => h k (Nat.lt_succ_of_lt hk)]
    exact bind_congr_ok (h n (Nat.lt_succ_self n))

/-- What each step carries on from its number to the next holds after all
of them. -/
theorem takeSteps_invariant {step : σ → Except ε σ} (P : Nat → σ → Prop) {n : Nat} {s t : σ}
    (hstep : ∀ i s s', i < n → P i s → step s = .ok s' → P (i + 1) s') (hs : P 0 s)
    (h : takeSteps step n s = .ok t) : P n t := by
  induction n generalizing t with
  | zero =>
    cases h
    exact hs
  | succ n ih =>
    rw [takeSteps_succ] at h
    obtain ⟨s', hs', hlast⟩ := bind_eq_ok_iff.mp h
    have hbefore : P n s' := ih (fun i s s' hi => hstep i s s' (Nat.lt_succ_of_lt hi)) hs'
    exact hstep n s' t (Nat.lt_succ_self n) hbefore hlast

/-- Steps that cannot fail where the invariant holds do not fail. -/
theorem takeSteps_total {step : σ → Except ε σ} (P : Nat → σ → Prop) {n : Nat} {s : σ}
    (hstep : ∀ i s, i < n → P i s → ∃ s', step s = .ok s' ∧ P (i + 1) s') (hs : P 0 s) :
    ∃ t, takeSteps step n s = .ok t ∧ P n t := by
  induction n with
  | zero => exact ⟨s, rfl, hs⟩
  | succ n ih =>
    obtain ⟨s', hs', hbefore⟩ := ih fun i s hi => hstep i s (Nat.lt_succ_of_lt hi)
    obtain ⟨t, hlast, ht⟩ := hstep n s' (Nat.lt_succ_self n) hbefore
    exact ⟨t, takeSteps_succ step n s ▸ bind_eq_ok_iff.mpr ⟨s', hs', hlast⟩, ht⟩

/-! ## Failing at a step -/

/-- The chain from `s` goes well for `k` steps and fails at the next. -/
def FailsAt (step : σ → Except ε σ) (k : Nat) (s : σ) (e : ε) : Prop :=
  ∃ s', takeSteps step k s = .ok s' ∧ step s' = .error e

/-- Failing at a step, told by the chains up to it and over it. -/
theorem failsAt_iff_takeSteps {step : σ → Except ε σ} {k : Nat} {s : σ} {e : ε} :
    FailsAt step k s e ↔
      (∃ t, takeSteps step k s = .ok t) ∧ takeSteps step (k + 1) s = .error e := by
  rw [takeSteps_succ, bind_eq_error_iff]
  constructor
  · rintro ⟨t, ht, hfail⟩
    exact ⟨⟨t, ht⟩, Or.inr ⟨t, ht, hfail⟩⟩
  · rintro ⟨⟨t, ht⟩, herror | hfail⟩
    · rw [ht] at herror
      cases herror
    · exact hfail

/-- Chains that cannot be told apart fail alike. -/
theorem failsAt_congr {step step' : σ → Except ε σ} {n : Nat} {s : σ}
    (h : ∀ m ≤ n, takeSteps step m s = takeSteps step' m s) {k : Nat} (hk : k < n) {e : ε} :
    FailsAt step k s e ↔ FailsAt step' k s e := by
  rw [failsAt_iff_takeSteps, failsAt_iff_takeSteps, h k (Nat.le_of_lt hk), h (k + 1) hk]

theorem takeSteps_eq_error_iff {step : σ → Except ε σ} {n : Nat} {s : σ} {e : ε} :
    takeSteps step n s = .error e ↔ ∃ k < n, FailsAt step k s e := by
  induction n with
  | zero =>
    constructor
    · intro h
      cases h
    · rintro ⟨k, hk, -⟩
      cases hk
  | succ n ih =>
    rw [takeSteps_succ, bind_eq_error_iff, ih]
    constructor
    · rintro (⟨k, hk, hfail⟩ | hfail)
      · exact ⟨k, Nat.lt_succ_of_lt hk, hfail⟩
      · exact ⟨n, Nat.lt_succ_self n, hfail⟩
    · rintro ⟨k, hk, hfail⟩
      rcases Nat.lt_or_eq_of_le (Nat.le_of_lt_succ hk) with hlt | rfl
      · exact Or.inl ⟨k, hlt, hfail⟩
      · exact Or.inr hfail

/-! ## Checks before a chain

Strategies look at what they are asked for first, and then take their
steps. -/

section Checked

variable {check : Except ε Unit} {step : σ → Except ε σ} {n : Nat} {s : σ} {f : σ → β}

theorem checked_eq_ok_iff {b : β} :
    (check >>= fun _ => takeSteps step n s >>= fun t => .ok (f t)) = .ok b ↔
      check = .ok () ∧ ∃ t, takeSteps step n s = .ok t ∧ b = f t := by
  rw [bind_eq_ok_iff]
  constructor
  · rintro ⟨⟨⟩, hcheck, h⟩
    obtain ⟨t, ht, h⟩ := bind_eq_ok_iff.mp h
    cases h
    exact ⟨hcheck, t, ht, rfl⟩
  · rintro ⟨hcheck, t, ht, rfl⟩
    exact ⟨(), hcheck, bind_eq_ok_iff.mpr ⟨t, ht, rfl⟩⟩

theorem checked_eq_error_iff {e : ε} :
    (check >>= fun _ => takeSteps step n s >>= fun t => .ok (f t)) = .error e ↔
      check = .error e ∨ check = .ok () ∧ ∃ k < n, FailsAt step k s e := by
  rw [bind_eq_error_iff]
  refine or_congr_right ?_
  constructor
  · rintro ⟨⟨⟩, hcheck, h⟩
    rcases bind_eq_error_iff.mp h with h | ⟨t, -, h⟩
    · exact ⟨hcheck, takeSteps_eq_error_iff.mp h⟩
    · cases h
  · rintro ⟨hcheck, hfail⟩
    exact ⟨(), hcheck, bind_eq_error_iff.mpr (Or.inl (takeSteps_eq_error_iff.mpr hfail))⟩

end Checked

/-! ## When chains fail -/

/-- A chain goes no further than it fails. -/
theorem FailsAt.le {step : σ → Except ε σ} {k n : Nat} {s t : σ} {e : ε}
    (h : FailsAt step k s e) (hn : takeSteps step n s = .ok t) : n ≤ k := by
  by_contra hlt
  have hfail : takeSteps step n s = .error e :=
    takeSteps_eq_error_iff.mpr ⟨k, Nat.lt_of_not_le hlt, h⟩
  rw [hn] at hfail
  cases hfail

theorem FailsAt.unique {step : σ → Except ε σ} {k k' : Nat} {s : σ} {e e' : ε}
    (h : FailsAt step k s e) (h' : FailsAt step k' s e') : k = k' := by
  have hle : k' ≤ k := h.le h'.choose_spec.1
  have hge : k ≤ k' := h'.le h.choose_spec.1
  exact Nat.le_antisymm hge hle

/-! ## Side by side -/

theorem forall₂_iff_getElem? {R : α → β → Prop} {xs : List α} {ys : List β} :
    List.Forall₂ R xs ys ↔ xs.length = ys.length ∧
      ∀ (i : Nat) (x : α) (y : β), xs[i]? = some x → ys[i]? = some y → R x y := by
  rw [List.forall₂_iff_get]
  refine and_congr_right fun hlength => ⟨fun h i x y hx hy => ?_, fun h i hi hi' => ?_⟩
  · obtain ⟨hi, rfl⟩ := List.getElem?_eq_some_iff.mp hx
    obtain ⟨hi', rfl⟩ := List.getElem?_eq_some_iff.mp hy
    exact h i hi hi'
  · exact h i _ _ (List.getElem?_eq_getElem hi) (List.getElem?_eq_getElem hi')

/-- Lists of one length have entries in the same places. -/
theorem exists_getElem? {xs : List α} {ys : List β} (h : xs.length = ys.length) {i : Nat} {x : α}
    (hx : xs[i]? = some x) : ∃ y, ys[i]? = some y :=
  ⟨_, List.getElem?_eq_getElem (h ▸ (List.getElem?_eq_some_iff.mp hx).1)⟩

/-- Lists of one length with the same entries in the same places are the
same. -/
theorem eq_of_getElem? {xs ys : List α} (hlength : xs.length = ys.length)
    (h : ∀ (i : Nat) (x y : α), xs[i]? = some x → ys[i]? = some y → x = y) : xs = ys :=
  List.ext_getElem hlength fun i hi hi' =>
    h i _ _ (List.getElem?_eq_getElem hi) (List.getElem?_eq_getElem hi')

theorem forall₂_trans {γ : Type} {R : α → β → Prop} {S : β → γ → Prop} {xs : List α} {zs : List γ} :
    (∃ ys, List.Forall₂ R xs ys ∧ List.Forall₂ S ys zs) ↔
      List.Forall₂ (fun x z => ∃ y, R x y ∧ S y z) xs zs := by
  constructor
  · rintro ⟨ys, hxy, hyz⟩
    induction hxy generalizing zs with
    | nil =>
      cases hyz
      exact .nil
    | cons hR _ ih =>
      cases hyz with
      | cons hS hyz => exact .cons ⟨_, hR, hS⟩ (ih hyz)
  · intro h
    induction h with
    | nil => exact ⟨[], .nil, .nil⟩
    | cons h _ ih =>
      obtain ⟨y, hR, hS⟩ := h
      obtain ⟨ys, hxy, hyz⟩ := ih
      exact ⟨y :: ys, .cons hR hxy, .cons hS hyz⟩

/-! ## Changes one after the other -/

section

variable {ι κ : Type} [DecidableEq κ]
variable {change : ι → σ → σ} {key : ι → κ} {Holds : ι → σ → Prop}

/-- Where a change settles what it is about and nothing else, the last change
about a thing holds, or what held before if there is none. -/
theorem holds_foldl_iff
    (hself : ∀ {a b s}, key b = key a → (Holds a (change b s) ↔ b = a))
    (hother : ∀ {a b s}, key b ≠ key a → (Holds a (change b s) ↔ Holds a s))
    {changes : List ι} {a : ι} {s : σ} :
    Holds a (changes.foldl (fun s b => change b s) s) ↔
      (changes.filter fun b => key b = key a).getLast? = some a ∨
        key a ∉ changes.map key ∧ Holds a s := by
  induction changes using List.reverseRecOn with
  | nil => simp
  | append_singleton changes b ih =>
    rw [List.foldl_append, List.filter_append, List.foldl_cons, List.foldl_nil]
    by_cases hkey : key b = key a
    · rw [hself hkey]
      simp [hkey]
    · rw [hother hkey, ih]
      simp [hkey, Ne.symm hkey]

end

end OrderDecoding
