/-
# `Proofs.Asking` — what comes of asking a scorer for a row

A position asks its scorer about one step at a time and believes nothing it
is told.  So there are two things that can come of a question: a row that is
as it should be (`Position.Answers`), or a refusal (`Position.Refuses`),
because the scorer has no row to give or because something is wrong with the
one it gives.  What is wrong is what the check comes upon first
(`RowFault`): the length, and after that the entries from the left.

A replay asks for the rows of all steps in turn, each for the orders before
it.  It gives all of them (`Position.Replays`), or it stops at the first
step that is refused (`Position.Stops`); what the later steps would have been
told makes no difference then.
-/
import OrderDecoding.Proofs.Replaying

namespace OrderDecoding

open Score

variable {α : Type} [Score α]

/-! ## Rows -/

/-- What is wrong with a row: it is not of the length it should be, or it is
and this is the first entry that cannot be a score. -/
inductive RowFault (size : Nat) (row : List α) : RowError → Prop
  | length : row.length ≠ size → RowFault size row (.length size row.length)
  | entry {index : Nat} {x : α} {value : NonFinite} : row.length = size →
      row[index]? = some x → noScore? x = some value →
      (∀ j < index, ∀ y, row[j]? = some y → noScore? y = none) →
      RowFault size row (.entry index value)

namespace Position

theorem exists_of_badEntry {row : List α} {index : Nat} {value : NonFinite}
    (h : badEntry? row = some (index, value)) :
    (∃ x, row[index]? = some x ∧ noScore? x = some value) ∧
      ∀ j < index, ∀ y, row[j]? = some y → noScore? y = none := by
  obtain ⟨before, ⟨x, i⟩, after, hsplit, hx, hbefore⟩ := List.findSome?_eq_some_iff.mp h
  obtain ⟨found, hfound, heq⟩ := Option.map_eq_some_iff.mp hx
  obtain ⟨rfl, rfl⟩ := Prod.mk.inj heq
  have hplace : row.zipIdx[before.length]? = some (x, i) := by
    rw [hsplit, List.getElem?_append_right (Nat.le_refl _), Nat.sub_self, List.getElem?_cons_zero]
  obtain ⟨hrow, hi⟩ := getElem?_zipIdx_iff.mp hplace
  dsimp only at hi hrow
  subst hi
  refine ⟨⟨x, hrow, hfound⟩, fun j hj y hy => ?_⟩
  have hmem : (y, j) ∈ before := by
    refine List.mem_of_getElem? (i := j) ?_
    rw [← List.getElem?_append_left hj, ← hsplit]
    exact getElem?_zipIdx_iff.mpr ⟨hy, rfl⟩
  exact Option.map_eq_none_iff.mp (hbefore _ hmem)

theorem badEntry?_eq_some_iff {row : List α} {index : Nat} {value : NonFinite} :
    badEntry? row = some (index, value) ↔
      (∃ x, row[index]? = some x ∧ noScore? x = some value) ∧
        ∀ j < index, ∀ y, row[j]? = some y → noScore? y = none := by
  refine ⟨exists_of_badEntry, ?_⟩
  rintro ⟨⟨x, hx, hvalue⟩, hbefore⟩
  cases hbad : badEntry? row with
  | none =>
    have hmem : (x, index) ∈ row.zipIdx := List.mem_zipIdx_iff_getElem?.mpr hx
    have hnone := Option.map_eq_none_iff.mp (List.findSome?_eq_none_iff.mp hbad _ hmem)
    rw [hnone] at hvalue
    cases hvalue
  | some found =>
    -- of two first entries neither is before the other
    obtain ⟨i, other⟩ := found
    obtain ⟨⟨y, hy, hother⟩, hfirst⟩ := exists_of_badEntry hbad
    rcases Nat.lt_trichotomy i index with hlt | rfl | hlt
    · rw [hbefore i hlt y hy] at hother
      cases hother
    · obtain rfl : x = y := Option.some.inj (hx.symm.trans hy)
      rw [Option.some.inj (hother.symm.trans hvalue)]
    · rw [hfirst index hlt x hx] at hvalue
      cases hvalue

variable {p : Position α} {step : Nat} {prior : List Order} {row : List α} {e : DecodeError}

/-- The check of a row fails with what is wrong with it. -/
theorem checkRow_eq_error_iff :
    p.checkRow step row = .error e ↔ ∃ fault, RowFault p.vocab.size row fault ∧
      e = .scores step fault := by
  unfold checkRow
  by_cases hlength : row.length = p.vocab.size
  · rw [if_neg (not_not.mpr hlength)]
    constructor
    · intro h
      cases hbad : badEntry? row with
      | none =>
        rw [hbad] at h
        cases h
      | some found =>
        rw [hbad] at h
        cases h
        obtain ⟨⟨x, hx, hvalue⟩, hbefore⟩ := exists_of_badEntry hbad
        exact ⟨_, .entry hlength hx hvalue hbefore, rfl⟩
    · rintro ⟨fault, hfault, rfl⟩
      cases hfault with
      | length hne => exact absurd hlength hne
      | entry _ hx hvalue hbefore => rw [badEntry?_eq_some_iff.mpr ⟨⟨_, hx, hvalue⟩, hbefore⟩]
  · rw [if_pos hlength]
    constructor
    · intro h
      cases h
      exact ⟨_, .length hlength, rfl⟩
    · rintro ⟨fault, hfault, rfl⟩
      cases hfault with
      | length _ => rfl
      | entry heq _ _ _ => exact absurd heq hlength

/-! ## Questions -/

/-- The scorer, shown the units up to a step and the orders before it, gives
this row, and it is as it should be. -/
structure Answers (p : Position α) (step : Nat) (prior : List Order) (row : List α) : Prop where
  given : p.scorer (p.units.upTo step) prior = .ok row
  length : row.length = p.vocab.size
  scores : ∀ x ∈ row, noScore? x = none

/-- The scorer has no row for a step, or gives one with something wrong. -/
inductive Refuses (p : Position α) (step : Nat) (prior : List Order) : DecodeError → Prop
  | scorer {cause : ScorerError} : p.scorer (p.units.upTo step) prior = .error cause →
      Refuses p step prior (.scorer cause)
  | row {row : List α} {fault : RowError} : p.scorer (p.units.upTo step) prior = .ok row →
      RowFault p.vocab.size row fault → Refuses p step prior (.scores step fault)

theorem rowAt_eq_ok_iff (hstep : step < p.numSteps) :
    p.rowAt step prior = .ok row ↔ p.Answers step prior row := by
  have hstep : step < p.units.length := hstep
  rw [rowAt, if_neg (Nat.not_le.mpr hstep)]
  constructor
  · intro h
    cases hscorer : p.scorer (p.units.upTo step) prior with
    | error cause =>
      rw [hscorer] at h
      cases h
    | ok given =>
      rw [hscorer] at h
      obtain ⟨⟨⟩, hcheck, h⟩ := bind_eq_ok_iff.mp h
      cases h
      obtain ⟨hlength, hscores⟩ := checkRow_eq_ok_iff.mp hcheck
      exact ⟨hscorer, hlength, hscores⟩
  · rintro ⟨hgiven, hlength, hscores⟩
    rw [hgiven]
    exact bind_eq_ok_iff.mpr ⟨(), checkRow_eq_ok_iff.mpr ⟨hlength, hscores⟩, rfl⟩

theorem rowAt_eq_error_iff (hstep : step < p.numSteps) :
    p.rowAt step prior = .error e ↔ p.Refuses step prior e := by
  have hstep : step < p.units.length := hstep
  rw [rowAt, if_neg (Nat.not_le.mpr hstep)]
  constructor
  · intro h
    cases hscorer : p.scorer (p.units.upTo step) prior with
    | error cause =>
      rw [hscorer] at h
      cases h
      exact .scorer hscorer
    | ok given =>
      rw [hscorer] at h
      rcases bind_eq_error_iff.mp h with hcheck | ⟨_, _, h⟩
      · obtain ⟨fault, hfault, rfl⟩ := checkRow_eq_error_iff.mp hcheck
        exact .row hscorer hfault
      · cases h
  · intro h
    cases h with
    | scorer hscorer => rw [hscorer]
    | row hscorer hfault =>
      rw [hscorer]
      exact bind_eq_error_iff.mpr (Or.inl (checkRow_eq_error_iff.mpr ⟨_, hfault, rfl⟩))

/-! ## Replays -/

/-- A row for every step of a replay, each answered for the orders before
it. -/
structure Replays (p : Position α) (orders : List Order) (rows : List (List α)) : Prop where
  length : rows.length = orders.length
  answers : ∀ i row, rows[i]? = some row → p.Answers i (orders.take i) row

/-- The first step of a replay that is refused its row, and how. -/
def Stops (p : Position α) (orders : List Order) (e : DecodeError) : Prop :=
  ∃ i < orders.length, p.Refuses i (orders.take i) e ∧
    ∀ j < i, ∃ row, p.Answers j (orders.take j) row

variable {orders : List Order} {rows : List (List α)}

/-- There are such rows if every step is answered. -/
theorem exists_replays_iff : (∃ rows, p.Replays orders rows) ↔
    ∀ i < orders.length, ∃ row, p.Answers i (orders.take i) row := by
  constructor
  · rintro ⟨rows, hlength, hanswers⟩ i hi
    obtain ⟨row, hrow⟩ := exists_getElem? hlength.symm (List.getElem?_eq_getElem hi)
    exact ⟨row, hanswers i row hrow⟩
  · intro h
    choose! f hf using h
    refine ⟨(List.range orders.length).map f, by simp, fun i row hrow => ?_⟩
    rw [List.getElem?_map, Option.map_eq_some_iff] at hrow
    obtain ⟨j, hj, rfl⟩ := hrow
    obtain ⟨hi, rfl⟩ := getElem?_range_iff.mp hj
    exact hf i hi

theorem replay_eq_ok_iff :
    p.replay orders = .ok rows ↔ orders.length ≤ p.numSteps ∧ p.Replays orders rows := by
  unfold replay
  split
  · next hmany =>
    constructor
    · intro h
      cases h
    · rintro ⟨hfew, -⟩
      exact absurd hmany (Nat.not_lt.mpr hfew)
  · next hfew =>
    have hfew : orders.length ≤ p.numSteps := Nat.le_of_not_lt hfew
    have hstep {i : Nat} (hi : i < orders.length) (row : List α) :
        p.rowAt i (orders.take i) = .ok row ↔ p.Answers i (orders.take i) row :=
      rowAt_eq_ok_iff (Nat.lt_of_lt_of_le hi hfew)
    rw [and_iff_right hfew]
    constructor
    · intro h
      obtain ⟨hlength, hrows⟩ := forall₂_iff_getElem?.mp (forall₂_of_mapM h)
      rw [List.length_range] at hlength
      refine ⟨hlength.symm, fun i row hrow => ?_⟩
      have hi : i < orders.length := hlength ▸ (List.getElem?_eq_some_iff.mp hrow).1
      exact (hstep hi row).mp (hrows i i row (getElem?_range_iff.mpr ⟨hi, rfl⟩) hrow)
    · rintro ⟨hlength, hanswers⟩
      refine mapM_of_forall₂ (forall₂_iff_getElem?.mpr ⟨by rw [List.length_range, hlength], ?_⟩)
      intro i j row hj hrow
      obtain ⟨hi, rfl⟩ := getElem?_range_iff.mp hj
      exact (hstep hi row).mpr (hanswers i row hrow)

/-- A replay that fails has more orders than there are units, or stops at a
step. -/
theorem replay_eq_error_iff : p.replay orders = .error e ↔
    (p.numSteps < orders.length ∧ e = .argument (.tooManyOrders orders.length p.numSteps)) ∨
      orders.length ≤ p.numSteps ∧ p.Stops orders e := by
  unfold replay
  split
  · next hmany =>
    have hmany : p.numSteps < orders.length := hmany
    rw [and_iff_right hmany, or_iff_left fun h => Nat.not_lt.mpr h.1 hmany]
    constructor
    · intro h
      cases h
      rfl
    · rintro rfl
      rfl
  · next hfew =>
    have hfew : orders.length ≤ p.numSteps := Nat.le_of_not_lt hfew
    rw [and_iff_right hfew, or_iff_right fun h => Nat.not_lt.mpr hfew h.1,
      mapM_range_eq_error_iff]
    refine exists_congr fun i => and_congr_right fun hi => ?_
    have hlt : i < p.numSteps := Nat.lt_of_lt_of_le hi hfew
    refine and_congr (rowAt_eq_error_iff hlt) (forall₂_congr fun j hj => exists_congr fun row => ?_)
    exact rowAt_eq_ok_iff (Nat.lt_trans hj hlt)

end Position

end OrderDecoding
