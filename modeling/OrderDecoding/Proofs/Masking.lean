/-
# `Proofs.Masking` — what the constraint does to a row

Masking replaces the entries of the claimed destinations by `-∞` and leaves
every other entry as it is (`getElem?_mask`).  A constrained row is the
masked row, or, when that has nothing left, the row as it was
(`constrain_cases`).

So an entry that is picked although it is a claimed destination says
something about the whole row: nothing else was there to pick
(`eq_negInf_of_target`).
-/
import OrderDecoding.Proofs.Claims
import OrderDecoding.Proofs.Lawful

namespace OrderDecoding

open Score

variable {α : Type}

theorem getElem?_foldl_set (targets : List Nat) (x : α) (row : List α) (i : Nat) :
    (targets.foldl (fun r index => r.set index x) row)[i]? =
      if i ∈ targets then row[i]?.map fun _ => x else row[i]? := by
  induction targets generalizing row with
  | nil => simp
  | cons t rest ih =>
    rw [List.foldl_cons, ih, List.getElem?_set']
    by_cases hit : t = i
    · subst hit
      rw [if_pos rfl, if_pos List.mem_cons_self]
      split
      · cases row[t]? <;> rfl
      · rfl
    · rw [if_neg hit]
      by_cases hrest : i ∈ rest
      · rw [if_pos hrest, if_pos (List.mem_cons_of_mem t hrest)]
      · rw [if_neg hrest, if_neg fun h => (List.mem_cons.mp h).elim (Ne.symm hit) hrest]

variable [Score α]

namespace Row

/-- Entries that can be scores: numbers below `+∞`. -/
def Valid (row : List α) : Prop := ∀ x ∈ row, x < posInf

theorem Valid.get {row : List α} (h : Valid row) {i : Nat} {x : α} (hx : row[i]? = some x) :
    x < posInf := h x (List.mem_of_getElem? hx)

/-- Entries that are numbers, maybe `+∞`. -/
def Numbers (row : List α) : Prop := ∀ x ∈ row, x ≤ x

theorem Numbers.get {row : List α} (h : Numbers row) {i : Nat} {x : α} (hx : row[i]? = some x) :
    x ≤ x := h x (List.mem_of_getElem? hx)

theorem Valid.numbers [LawfulScore α] {row : List α} (h : Valid row) : Numbers row :=
  fun x hx => LawfulScore.self_le_of_lt_posInf (h x hx)

theorem hasMass_iff {row : List α} :
    hasMass row = true ↔ ∃ (i : Nat) (x : α), row[i]? = some x ∧ negInf < x := by
  simp only [hasMass, List.any_eq_true, decide_eq_true_eq, List.mem_iff_getElem?]
  exact ⟨fun ⟨x, ⟨i, hi⟩, hx⟩ => ⟨i, x, hi, hx⟩, fun ⟨i, x, hi, hx⟩ => ⟨x, ⟨i, hi⟩, hx⟩⟩

theorem hasMass_eq_false_iff [LawfulScore α] {row : List α} (h : Numbers row) :
    hasMass row = false ↔ ∀ x ∈ row, x = negInf := by
  rw [hasMass, List.any_eq_false]
  refine forall₂_congr fun x hx => ?_
  rw [decide_eq_true_eq, LawfulScore.not_negInf_lt_iff (h x hx)]

end Row

namespace Constraint

variable {c : Constraint} {s : Sequence} {row : List α}

theorem mem_targets {i length : Nat} : i ∈ c.targets s length ↔
    c.enabled = true ∧ i < length ∧ ∃ area ∈ s.claimed, c.vocab.destinationIndex area = i := by
  unfold targets
  split
  · next h => simp [h, and_comm]
  · next h => simp [h]

/-- Among two entries there is one that a path with a single claim leaves
open. -/
theorem exists_not_mem_targets (hone : s.claimed.length ≤ 1)
    {a b : Nat} (hne : a ≠ b) (length : Nat) :
    a ∉ c.targets s length ∨ b ∉ c.targets s length := by
  by_contra hboth
  rw [not_or, not_not, not_not] at hboth
  obtain ⟨-, -, areaA, hA, rfl⟩ := mem_targets.mp hboth.1
  obtain ⟨-, -, areaB, hB, rfl⟩ := mem_targets.mp hboth.2
  obtain ⟨area, hclaimed⟩ : ∃ area, s.claimed = [area] := by
    cases hs : s.claimed with
    | nil => rw [hs] at hA; cases hA
    | cons area rest =>
      rw [hs, List.length_cons] at hone
      exact ⟨area, by rw [List.eq_nil_of_length_eq_zero (by omega : rest.length = 0)]⟩
  rw [hclaimed, List.mem_singleton] at hA hB
  exact hne (by rw [hA, hB])

theorem getElem?_mask (i : Nat) : (c.mask s row)[i]? =
    if i ∈ c.targets s row.length then row[i]?.map fun _ => negInf else row[i]? :=
  getElem?_foldl_set ..

/-- The constrained row is the masked one, or the row itself with nothing
left by the mask. -/
theorem constrain_cases (c : Constraint) (s : Sequence) (row : List α) :
    (c.constrain s row).row = c.mask s row ∨
    (c.constrain s row).row = row ∧ Row.hasMass (c.mask s row) = false := by
  simp only [constrain]
  split
  · exact Or.inl rfl
  · next h =>
    simp only [Bool.or_eq_true, not_or, Bool.not_eq_true] at h
    exact Or.inr ⟨rfl, h.2⟩

/-- The masked row, unless it is relaxed. -/
theorem row_constrain (c : Constraint) (s : Sequence) (row : List α) :
    (c.constrain s row).row = if (c.constrain s row).relaxed then row else c.mask s row := by
  simp only [constrain]
  split <;> rfl

theorem relaxed_eq_true_iff : (c.constrain s row).relaxed = true ↔
    c.targets s row.length ≠ [] ∧ Row.hasMass (c.mask s row) = false := by
  simp only [constrain, maskedCount, List.length_eq_zero_iff]
  by_cases hnone : c.targets s row.length = []
  · simp [hnone]
  · cases hmass : Row.hasMass (c.mask s row) <;> simp [hnone]

/-- An entry of the constrained row is masked or is that of the row. -/
theorem getElem?_constrain {i : Nat} {x : α} (h : (c.constrain s row).row[i]? = some x) :
    (x = negInf ∨ row[i]? = some x) ∧ i < row.length := by
  have hrow : x = negInf ∧ i < row.length ∨ row[i]? = some x := by
    rcases constrain_cases c s row with hmask | ⟨hrow, -⟩
    · rw [hmask, getElem?_mask] at h
      split at h
      · next htarget =>
        obtain ⟨y, -, rfl⟩ := Option.map_eq_some_iff.mp h
        exact Or.inl ⟨rfl, (mem_targets.mp htarget).2.1⟩
      · exact Or.inr h
    · exact Or.inr (hrow ▸ h)
  rcases hrow with ⟨hx, hi⟩ | hx
  · exact ⟨Or.inl hx, hi⟩
  · exact ⟨Or.inr hx, (List.getElem?_eq_some_iff.mp hx).1⟩

/-- Off the claimed destinations a constrained row is the row itself. -/
theorem getElem?_constrain_of_not_target {i : Nat} (h : i ∉ c.targets s row.length) :
    (c.constrain s row).row[i]? = row[i]? := by
  rcases constrain_cases c s row with hmask | ⟨hrow, -⟩
  · rw [hmask, getElem?_mask, if_neg h]
  · rw [hrow]

theorem length_mask : (c.mask s row).length = row.length := by
  unfold mask
  generalize c.targets s row.length = targets
  induction targets generalizing row with
  | nil => rfl
  | cons t rest ih => rw [List.foldl_cons, ih, List.length_set]

theorem length_constrain : (c.constrain s row).row.length = row.length := by
  rcases constrain_cases c s row with hmask | ⟨hrow, -⟩
  · rw [hmask, length_mask]
  · rw [hrow]

/-- A constrained row has mass where the row has. -/
theorem hasMass_constrain (h : Row.hasMass row = true) :
    Row.hasMass (c.constrain s row).row = true := by
  simp only [constrain]
  split
  · next hkeep =>
    simp only [Bool.or_eq_true, decide_eq_true_eq] at hkeep
    rcases hkeep with hzero | hmass
    · have hnil : c.targets s row.length = [] := List.eq_nil_of_length_eq_zero hzero
      obtain ⟨i, x, hi, hx⟩ := Row.hasMass_iff.mp h
      refine Row.hasMass_iff.mpr ⟨i, x, ?_, hx⟩
      rw [getElem?_mask, hnil, if_neg List.not_mem_nil, hi]
    · exact hmass
  · exact h

/-- With the constraint off, or no area claimed, rows stay as they are and
are not relaxed. -/
theorem constrain_eq_unrelaxed (h : c.enabled = false ∨ s.claimed = []) :
    c.constrain s row = { row, relaxed := false } := by
  have hnone : c.targets s row.length = [] := by
    rcases h with h | h <;> simp [targets, h]
  have hmask : c.mask s row = row := by
    rw [mask, hnone]
    rfl
  have hcount : c.maskedCount s row = 0 := by
    rw [maskedCount, hnone]
    rfl
  simp only [constrain, hmask, hcount, decide_true, Bool.true_or, if_true]

theorem constrain_eq_self (h : c.enabled = false ∨ s.claimed = []) :
    (c.constrain s row).row = row := by
  rw [constrain_eq_unrelaxed h]

section

variable [LawfulOrder α]

/-- A mask leaves nothing exactly if nothing that it does not cover has
mass. -/
theorem hasMass_mask_iff : Row.hasMass (c.mask s row) = false ↔
    ∀ (i : Nat) (x : α), row[i]? = some x → i ∉ c.targets s row.length → ¬ negInf < x := by
  rw [← Bool.not_eq_true, Row.hasMass_iff]
  constructor
  · intro hnone i x hx hi hopen
    exact hnone ⟨i, x, by rw [getElem?_mask, if_neg hi, hx], hopen⟩
  · rintro hmasked ⟨i, x, hx, hopen⟩
    rw [getElem?_mask] at hx
    split at hx
    · obtain ⟨-, -, rfl⟩ := Option.map_eq_some_iff.mp hx
      exact LawfulScore.lt_irrefl hopen
    · next hi => exact hmasked i x hx hi hopen

/-- The constraint neither takes all that there is to choose nor adds
anything. -/
theorem hasMass_constrain_eq :
    Row.hasMass (c.constrain s row).row = Row.hasMass row := by
  refine Bool.eq_iff_iff.mpr ⟨fun h => ?_, hasMass_constrain⟩
  obtain ⟨i, x, hx, hopen⟩ := Row.hasMass_iff.mp h
  rcases (getElem?_constrain hx).1 with rfl | hx
  · exact absurd hopen LawfulScore.lt_irrefl
  · exact Row.hasMass_iff.mpr ⟨i, x, hx, hopen⟩

end

variable [LawfulScore α]

theorem valid_constrain (hvalid : Row.Valid row) : Row.Valid (c.constrain s row).row := by
  intro x hx
  obtain ⟨i, hi⟩ := List.mem_iff_getElem?.mp hx
  rcases (getElem?_constrain hi).1 with rfl | hi
  · exact LawfulScore.negInf_lt_posInf
  · exact hvalid.get hi

/-- If a claimed destination can be picked at all, every other entry is
masked in the row itself. -/
theorem eq_negInf_of_target {i j : Nat} {x y : α} (hvalid : Row.Valid row)
    (hx : (c.constrain s row).row[i]? = some x) (hpick : ¬ x ≤ negInf)
    (htarget : i ∈ c.targets s row.length) (hy : row[j]? = some y)
    (hj : j ∉ c.targets s row.length) : y = negInf := by
  rcases constrain_cases c s row with hmask | ⟨-, hnone⟩
  · rw [hmask, getElem?_mask, if_pos htarget] at hx
    obtain ⟨z, -, rfl⟩ := Option.map_eq_some_iff.mp hx
    exact absurd LawfulScore.negInf_le_negInf hpick
  · have hmasked := hasMass_mask_iff.mp hnone j y hy hj
    exact (LawfulScore.not_negInf_lt_iff (hvalid.numbers.get hy)).mp hmasked

end Constraint

end OrderDecoding
