/-
# `Proofs.Bookkeeping` — claimed areas and masked entries agree

What an area claim forbids is said twice.  `Constraint.forbids` takes an
entry and asks what it stands for; `Constraint.mask` takes the claimed set
and goes from each area to its entry, as far as the row reaches.  The two
ways agree on a row of the vocabulary (`mem_targets_size_iff`), claims of
areas off the map included: their entries lie behind the row, and no entry
of it stands for them.

Counting needs one thing more.  The mask counts the areas that it walks
over, so its count is that of the forbidden entries only because the set
names no area twice (`nodup_targets`).
-/
import OrderDecoding.Proofs.Binary64.Lawful
import OrderDecoding.Proofs.Masking

namespace OrderDecoding

open Score

/-! ## Sequences -/

/-- The sequence that choices lead to, each committed by itself or under
some constraint. -/
inductive Committed : List Choice → Sequence → Prop
  | start : Committed [] {}
  | push {choices : List Choice} {s : Sequence} (choice : Choice) :
      Committed choices s → Committed (choices ++ [choice]) (s.push choice)
  | register {choices : List Choice} {s : Sequence} (c : Constraint) (choice : Choice) :
      Committed choices s → Committed (choices ++ [choice]) (c.register s choice)

/-- Under a constraint or not, the same choices lead to the same sequence. -/
theorem Committed.eq_ofChoices {choices : List Choice} {s : Sequence} (h : Committed choices s) :
    s = Sequence.ofChoices choices := by
  induction h with
  | start => rfl
  | push choice _ ih => rw [Sequence.ofChoices_concat, ← ih]
  | register c choice _ ih => rw [Sequence.ofChoices_concat, ← ih, Constraint.register]

theorem mem_claims_iff {choices : List Choice} {area : Area} :
    area ∈ claims choices ↔ ∃ choice ∈ choices, choice.order.claim? = some area :=
  List.mem_filterMap

/-! ## Entries -/

namespace Constraint

variable {c : Constraint} {s : Sequence}

theorem forbids_iff {i : Nat} : c.forbids s i = true ↔
    c.enabled = true ∧ ∃ area ∈ s.claimed, c.vocab.slot? i = some (.destination area) := by
  rw [forbids, Bool.and_eq_true]
  refine and_congr_right fun _ => ?_
  split
  · next area hslot =>
    rw [Sequence.isClaimed, List.contains_iff_mem]
    constructor
    · exact fun hclaimed => ⟨area, hclaimed, hslot⟩
    · rintro ⟨area', hclaimed, hslot'⟩
      cases hslot.symm.trans hslot'
      exact hclaimed
  · next hother =>
    refine iff_of_false Bool.false_ne_true ?_
    rintro ⟨area, -, hslot⟩
    exact hother area hslot

/-- The entries that the mask walks over are the forbidden ones. -/
theorem mem_targets_size_iff {i : Nat} : i ∈ c.targets s c.vocab.size ↔ c.forbids s i = true := by
  rw [mem_targets, forbids_iff]
  refine and_congr_right fun _ => ?_
  constructor
  · rintro ⟨hlt, area, hclaimed, rfl⟩
    refine ⟨area, hclaimed, Vocabulary.slot?_eq_destination_iff.mpr ⟨rfl, ?_⟩⟩
    exact Vocabulary.destinationIndex_lt_size.mp hlt
  · rintro ⟨area, hclaimed, hslot⟩
    obtain ⟨rfl, hmap⟩ := Vocabulary.slot?_eq_destination_iff.mp hslot
    exact ⟨Vocabulary.destinationIndex_lt_size.mpr hmap, area, hclaimed, rfl⟩

theorem lt_size_of_forbids {i : Nat} (h : c.forbids s i = true) : i < c.vocab.size :=
  (mem_targets.mp (mem_targets_size_iff.mpr h)).2.1

/-- The mask walks over no entry twice. -/
theorem nodup_targets (h : s.claimed.Nodup) (length : Nat) : (c.targets s length).Nodup := by
  unfold targets
  split
  · refine (h.map fun a b hab => ?_).filter _
    rw [Vocabulary.destinationIndex_eq, Vocabulary.destinationIndex_eq] at hab
    exact Nat.add_left_cancel hab
  · exact List.nodup_nil

/-- So it counts the forbidden entries. -/
theorem length_targets_size (h : s.claimed.Nodup) :
    (c.targets s c.vocab.size).length = (List.range c.vocab.size).countP (c.forbids s) := by
  rw [List.countP_eq_length_filter]
  refine List.Perm.length_eq ?_
  rw [List.perm_ext_iff_of_nodup (nodup_targets h _) (List.nodup_range.filter _)]
  intro i
  rw [mem_targets_size_iff, List.mem_filter, List.mem_range]
  exact ⟨fun hforbids => ⟨lt_size_of_forbids hforbids, hforbids⟩, And.right⟩

/-! ## Rows -/

variable {α : Type} [Score α] {row : List α}

/-- On a row of the vocabulary the mask covers the forbidden entries. -/
theorem getElem?_mask_size (hrow : row.length = c.vocab.size) (i : Nat) :
    (c.mask s row)[i]? = if c.forbids s i then row[i]?.map fun _ => negInf else row[i]? := by
  simp only [getElem?_mask, hrow, mem_targets_size_iff]

theorem targets_size_ne_nil_iff :
    c.targets s c.vocab.size ≠ [] ↔ ∃ i, c.forbids s i = true := by
  rw [Ne, List.eq_nil_iff_forall_not_mem, not_forall]
  exact exists_congr fun i => not_not.trans mem_targets_size_iff

variable [LawfulOrder α]

/-- The mask leaves nothing to choose exactly if all entries that are not
forbidden have no mass. -/
theorem hasMass_mask_size (hrow : row.length = c.vocab.size) :
    Row.hasMass (c.mask s row) = false ↔
      ∀ (i : Nat) (x : α), row[i]? = some x → c.forbids s i = false → ¬ negInf < x := by
  rw [hasMass_mask_iff, hrow]
  refine forall₃_congr fun i x _ => ?_
  rw [mem_targets_size_iff, Bool.not_eq_true]

theorem relaxed_size_iff (hrow : row.length = c.vocab.size) :
    (c.constrain s row).relaxed = true ↔ (∃ i, c.forbids s i = true) ∧
      ∀ (i : Nat) (x : α), row[i]? = some x → c.forbids s i = false → ¬ negInf < x := by
  rw [relaxed_eq_true_iff, hrow, targets_size_ne_nil_iff, hasMass_mask_size hrow]

end Constraint

/-! ## The agreement -/

/-- The claimed set of a sequence is that of its orders' claims, and under a
constraint it masks the forbidden entries of a row and no others.  The row
is relaxed exactly if something is forbidden and nothing else can be chosen;
then it is used as it is, and otherwise masked, and either way there is
something to choose if there was. -/
theorem mask_agrees_with_claims {α : Type} [Score α] [LawfulOrder α] {choices : List Choice}
    {s : Sequence} (h : Committed choices s) :
    (s.claimed.Pairwise (· < ·) ∧
      (∀ area, area ∈ s.claimed ↔ ∃ choice ∈ choices, choice.order.claim? = some area) ∧
      s.orders = choices.map (·.order)) ∧
    ∀ (c : Constraint) (row : List α), row.length = c.vocab.size →
      (∀ i, (c.mask s row)[i]? =
        if c.forbids s i then row[i]?.map fun _ => negInf else row[i]?) ∧
      c.maskedCount s row = (List.range row.length).countP (c.forbids s) ∧
      (c.enabled = false → c.maskedCount s row = 0) ∧
      ((c.constrain s row).relaxed = true ↔ (∃ i, c.forbids s i = true) ∧
        ∀ (i : Nat) (x : α), row[i]? = some x → c.forbids s i = false → ¬ negInf < x) ∧
      (c.constrain s row).row = (if (c.constrain s row).relaxed then row else c.mask s row) ∧
      Row.hasMass (c.constrain s row).row = Row.hasMass row := by
  obtain rfl := h.eq_ofChoices
  have hascending := Sequence.pairwise_claimed_ofChoices choices
  refine ⟨⟨hascending, fun area => ?_, Sequence.orders_ofChoices choices⟩, fun c row hrow => ?_⟩
  · rw [Sequence.mem_claimed_ofChoices, mem_claims_iff]
  · have hnodup : (Sequence.ofChoices choices).claimed.Nodup := hascending.imp Nat.ne_of_lt
    refine ⟨Constraint.getElem?_mask_size hrow, ?_, fun hdisabled => ?_,
      Constraint.relaxed_size_iff hrow, Constraint.row_constrain c _ row,
      Constraint.hasMass_constrain_eq⟩
    · rw [Constraint.maskedCount, hrow, Constraint.length_targets_size hnodup]
    · rw [Constraint.maskedCount, Constraint.targets, hdisabled]
      rfl

/-- A map of two areas. -/
def twoAreas : Constraint := { vocab := { numAreas := 2 }, enabled := true }

/-- Area 1 claimed twice, and area 5, which is not on the map. -/
def strayClaims : List Choice := [⟨10, .move 0 1⟩, ⟨10, .retreat 1 1⟩, ⟨14, .move 0 5⟩, ⟨0, .hold 1⟩]

/-- Only the destination of area 1 has mass; one entry is no number. -/
def strayRow : List Float := (List.replicate 11 negInf).set 3 (0.0 / 0.0) |>.set 10 0

theorem committed_strayClaims : Committed strayClaims (Sequence.ofChoices strayClaims) :=
  (((Committed.start.push _).register twoAreas _).register twoAreas _).push _

/-- One entry is masked for the two areas that are claimed, and then the row
is relaxed. -/
theorem strayClaims_agree :
    Committed strayClaims (Sequence.ofChoices strayClaims) ∧
    (Sequence.ofChoices strayClaims).claimed = [1, 5] ∧
    (5 ∈ (Sequence.ofChoices strayClaims).claimed ↔
      ∃ choice ∈ strayClaims, choice.order.claim? = some 5) ∧
    strayRow.length = twoAreas.vocab.size ∧
    (twoAreas.mask (Sequence.ofChoices strayClaims) strayRow)[10]? = some negInf ∧
    twoAreas.maskedCount (Sequence.ofChoices strayClaims) strayRow = 1 ∧
    (twoAreas.constrain (Sequence.ofChoices strayClaims) strayRow).relaxed = true ∧
    (twoAreas.constrain (Sequence.ofChoices strayClaims) strayRow).row = strayRow ∧
    ∀ (i : Nat) (x : Float), strayRow[i]? = some x →
      twoAreas.forbids (Sequence.ofChoices strayClaims) i = false → ¬ negInf < x := by
  obtain ⟨⟨-, hclaimed, -⟩, hrows⟩ := mask_agrees_with_claims (α := Float) committed_strayClaims
  obtain ⟨hmask, hcount, -, hrelaxed, hrow, -⟩ := hrows twoAreas strayRow rfl
  have hgiven : (twoAreas.constrain (Sequence.ofChoices strayClaims) strayRow).relaxed = true := by
    decide +kernel
  rw [hgiven, if_pos rfl] at hrow
  refine ⟨committed_strayClaims, by decide, hclaimed 5, rfl, (hmask 10).trans (by rfl),
    hcount.trans (by decide), hgiven, hrow, (hrelaxed.mp hgiven).2⟩

end OrderDecoding
