/-
# `Proofs.Claims` — the areas that choices claim

A sequence keeps the set of claimed areas beside its choices.  The set is
never looked at again once it is known to be that of the choices' own
claims (`mem_claimed_ofChoices`): from here on the claims of choices are
the list `claims`, repetitions and all, and a sequence is `ofChoices` of
its choices.

What a choice claims goes back to its entry.  An entry stands for one slot
(`Vocabulary.slot?_eq_some_iff`), a slot is read as an order
(`Vocabulary.orderAt_eq_ok_iff`), and only the destination of an area claims
it.
-/
import Mathlib.Data.List.Induction
import Mathlib.Data.List.Nodup
import OrderDecoding.Proofs.Runs

namespace OrderDecoding

/-- The areas that choices claim, in their order. -/
def claims (choices : List Choice) : List Area := choices.filterMap (·.order.claim?)

theorem claims_concat (choices : List Choice) (c : Choice) :
    claims (choices ++ [c]) = claims choices ++ c.order.claim?.toList := by
  rw [claims, List.filterMap_append]
  cases h : c.order.claim? <;> simp [claims, h]

/-! ## The set a sequence keeps -/

theorem mem_claimArea {x area : Area} {areas : List Area} :
    x ∈ claimArea area areas ↔ x = area ∨ x ∈ areas := by
  induction areas with
  | nil => simp [claimArea]
  | cons b rest ih =>
    rw [claimArea]
    split
    · simp
    · split
      · next h =>
        subst h
        simp
      · simp only [List.mem_cons, ih]
        constructor
        · rintro (h | h | h) <;> simp [h]
        · rintro (h | h | h) <;> simp [h]

theorem pairwise_claimArea {area : Area} {areas : List Area} (h : areas.Pairwise (· < ·)) :
    (claimArea area areas).Pairwise (· < ·) := by
  induction areas with
  | nil => exact List.pairwise_singleton _ _
  | cons b rest ih =>
    obtain ⟨hb, hrest⟩ := List.pairwise_cons.mp h
    rw [claimArea]
    split
    · next hlt =>
      refine List.pairwise_cons.mpr ⟨fun x hx => ?_, h⟩
      rcases List.mem_cons.mp hx with rfl | hx
      · exact hlt
      · exact Nat.lt_trans hlt (hb x hx)
    · next hge =>
      split
      · exact h
      · next hne =>
        refine List.pairwise_cons.mpr ⟨fun x hx => ?_, ih hrest⟩
        rcases mem_claimArea.mp hx with rfl | hx
        · exact Nat.lt_of_le_of_ne (Nat.le_of_not_lt hge) (Ne.symm hne)
        · exact hb x hx

theorem length_claimArea_le (area : Area) (areas : List Area) :
    (claimArea area areas).length ≤ areas.length + 1 := by
  induction areas with
  | nil => simp [claimArea]
  | cons b rest ih =>
    rw [claimArea]
    split
    · simp
    · split
      · simp
      · simpa using ih

namespace Sequence

theorem ofChoices_concat (choices : List Choice) (c : Choice) :
    ofChoices (choices ++ [c]) = (ofChoices choices).push c := by
  rw [ofChoices, List.foldl_append]
  rfl

@[simp] theorem choices_push (s : Sequence) (c : Choice) :
    (s.push c).choices = s.choices ++ [c] := rfl

@[simp] theorem length_push (s : Sequence) (c : Choice) : (s.push c).length = s.length + 1 := by
  simp [length]

@[simp] theorem choices_ofChoices (choices : List Choice) :
    (ofChoices choices).choices = choices := by
  induction choices using List.reverseRecOn with
  | nil => rfl
  | append_singleton choices c ih => rw [ofChoices_concat, choices_push, ih]

@[simp] theorem length_ofChoices (choices : List Choice) :
    (ofChoices choices).length = choices.length := by
  rw [length, choices_ofChoices]

@[simp] theorem orders_ofChoices (choices : List Choice) :
    (ofChoices choices).orders = choices.map (·.order) := by
  rw [orders, choices_ofChoices]

/-- The claimed set of a sequence is that of its choices' claims. -/
theorem mem_claimed_ofChoices {choices : List Choice} {area : Area} :
    area ∈ (ofChoices choices).claimed ↔ area ∈ claims choices := by
  induction choices using List.reverseRecOn with
  | nil => simp [ofChoices, claims]
  | append_singleton choices c ih =>
    rw [ofChoices_concat, claims_concat, List.mem_append, push]
    cases h : c.order.claim? with
    | none => simp [ih]
    | some b => simp [mem_claimArea, ih, or_comm]

/-- The set is kept ascending, so no area stands in it twice. -/
theorem pairwise_claimed_ofChoices (choices : List Choice) :
    (ofChoices choices).claimed.Pairwise (· < ·) := by
  induction choices using List.reverseRecOn with
  | nil => exact List.Pairwise.nil
  | append_singleton choices c ih =>
    rw [ofChoices_concat, push]
    cases c.order.claim? with
    | none => exact ih
    | some b => exact pairwise_claimArea ih

theorem length_claimed_le (choices : List Choice) :
    (ofChoices choices).claimed.length ≤ choices.length := by
  induction choices using List.reverseRecOn with
  | nil => simp [ofChoices]
  | append_singleton choices c ih =>
    rw [ofChoices_concat, push, List.length_append, List.length_singleton]
    cases c.order.claim? with
    | none => exact Nat.le_succ_of_le ih
    | some b => exact Nat.le_trans (length_claimArea_le b _) (Nat.succ_le_succ ih)

end Sequence

/-! ## What an entry stands for -/

namespace OrderKind

theorem index_lt (k : OrderKind) : k.index < Vocabulary.numKinds := by
  cases k <;> decide

theorem ofIndex?_eq_some_iff {i : Nat} {k : OrderKind} : ofIndex? i = some k ↔ i = k.index := by
  constructor
  · intro h
    have hall : ∀ i < all.length, ∀ k ∈ all, ofIndex? i = some k → i = k.index := by decide
    exact hall i (List.getElem?_eq_some_iff.mp h).1 k (List.mem_of_getElem? h) h
  · rintro rfl
    exact ofIndex?_index k

theorem exists_ofIndex? {i : Nat} (h : i < Vocabulary.numKinds) : ∃ k, ofIndex? i = some k :=
  ⟨_, List.getElem?_eq_getElem h⟩

end OrderKind

namespace Vocabulary

theorem numKinds_eq : numKinds = 7 := rfl

theorem size_eq (v : Vocabulary) : v.size = 7 + 2 * v.numAreas := rfl

theorem one_le_size (v : Vocabulary) : 1 ≤ v.size := by
  rw [size_eq]
  omega

theorem destinationOffset_eq (v : Vocabulary) : v.destinationOffset = 7 + v.numAreas := rfl

theorem destinationIndex_eq (v : Vocabulary) (area : Nat) :
    v.destinationIndex area = 7 + v.numAreas + area := rfl

/-- The entry of a slot. -/
def indexOf (v : Vocabulary) : Slot → Nat
  | .kind kind => kind.index
  | .source area => v.sourceOffset + area
  | .destination area => v.destinationIndex area

/-- The area of a slot, if it has one, is on the map. -/
def OnMap (v : Vocabulary) : Slot → Prop
  | .kind _ => True
  | .source area | .destination area => area < v.numAreas

theorem slot?_indexOf {v : Vocabulary} {slot : Slot} (h : v.OnMap slot) :
    v.slot? (v.indexOf slot) = some slot := by
  have hkinds := numKinds_eq
  have hoffset := v.destinationOffset_eq
  have hsize := v.size_eq
  cases slot with
  | kind kind => rw [indexOf, slot?, if_pos kind.index_lt, OrderKind.ofIndex?_index, Option.map_some]
  | source area =>
    have hlt := Nat.succ_le_of_lt (show area < v.numAreas from h)
    rw [indexOf, sourceOffset, slot?, if_neg (by omega), if_pos (by omega), sourceOffset,
      Nat.add_sub_cancel_left]
  | destination area =>
    have hlt := Nat.succ_le_of_lt (show area < v.numAreas from h)
    rw [indexOf, destinationIndex, slot?, if_neg (by omega), if_neg (by omega),
      if_pos (by omega), Nat.add_sub_cancel_left]

/-- An entry stands for one slot, and the slot has the entry. -/
theorem slot?_eq_some_iff {v : Vocabulary} {index : Nat} {slot : Slot} :
    v.slot? index = some slot ↔ index = v.indexOf slot ∧ v.OnMap slot := by
  have hkinds := numKinds_eq
  have hoffset := v.destinationOffset_eq
  have hsize := v.size_eq
  constructor
  · intro h
    unfold slot? at h
    split at h
    · obtain ⟨kind, hkind, rfl⟩ := Option.map_eq_some_iff.mp h
      exact ⟨OrderKind.ofIndex?_eq_some_iff.mp hkind, trivial⟩
    · split at h
      · cases h
        have hsource : v.sourceOffset = 7 := rfl
        exact ⟨(Nat.add_sub_of_le (by omega)).symm, show index - v.sourceOffset < v.numAreas by omega⟩
      · split at h
        · cases h
          exact ⟨(Nat.add_sub_of_le (by omega)).symm,
            show index - v.destinationOffset < v.numAreas by omega⟩
        · cases h
  · rintro ⟨rfl, hmap⟩
    exact slot?_indexOf hmap

theorem slot?_eq_destination_iff {v : Vocabulary} {index area : Nat} :
    v.slot? index = some (.destination area) ↔
      index = v.destinationIndex area ∧ area < v.numAreas := slot?_eq_some_iff

theorem destinationIndex_lt_size {v : Vocabulary} {area : Nat} :
    v.destinationIndex area < v.size ↔ area < v.numAreas := by
  rw [destinationIndex_eq, size_eq]
  omega

theorem exists_slot?_iff {v : Vocabulary} {index : Nat} :
    (∃ slot, v.slot? index = some slot) ↔ index < v.size := by
  have hkinds := numKinds_eq
  have hoffset := v.destinationOffset_eq
  have hsize := v.size_eq
  unfold slot?
  split
  · next hkind =>
    obtain ⟨kind, h⟩ := OrderKind.exists_ofIndex? hkind
    rw [h]
    exact iff_of_true ⟨_, rfl⟩ (by omega)
  · split
    · exact iff_of_true ⟨_, rfl⟩ (by omega)
    · split
      · next hlt => exact iff_of_true ⟨_, rfl⟩ hlt
      · next hout => exact iff_of_false nofun hout

theorem checkArea_eq_ok_iff {v : Vocabulary} {area : Area} :
    v.checkArea area = .ok () ↔ area < v.numAreas := by
  unfold checkArea
  split <;> simp [*]

/-- An entry is read as its slot, for any unit of the map. -/
theorem orderAt_eq_ok_iff {v : Vocabulary} {index : Nat} {unit : Area} {phase : Phase}
    {order : Order} : v.orderAt index unit phase = .ok order ↔
      unit < v.numAreas ∧ ∃ slot, v.slot? index = some slot ∧ order = readSlot unit phase slot := by
  unfold orderAt
  constructor
  · intro h
    split at h
    · cases h
    · next slot hslot =>
      obtain ⟨⟨⟩, hunit, h⟩ := bind_eq_ok_iff.mp h
      cases h
      exact ⟨checkArea_eq_ok_iff.mp hunit, slot, hslot, rfl⟩
  · rintro ⟨hunit, slot, hslot, rfl⟩
    rw [hslot]
    exact bind_eq_ok_iff.mpr ⟨(), checkArea_eq_ok_iff.mpr hunit, rfl⟩

/-! ## What an entry claims -/

theorem claim?_readSlot {unit : Area} {phase : Phase} {slot : Slot} {area : Area}
    (h : (readSlot unit phase slot).claim? = some area) :
    slot = .destination area ∧ phase ≠ .build := by
  cases slot with
  | kind k => cases k <;> cases h
  | source a => cases h
  | destination a =>
    cases phase with
    | movement =>
      cases h
      exact ⟨rfl, by decide⟩
    | retreat =>
      cases h
      exact ⟨rfl, by decide⟩
    | build => cases h

/-- Only the destination entry of an area claims it, and none does in the
build phase. -/
theorem claim?_orderAt {v : Vocabulary} {index : Nat} {unit area : Area} {phase : Phase}
    {order : Order} (h : v.orderAt index unit phase = .ok order)
    (hclaim : order.claim? = some area) :
    v.slot? index = some (.destination area) ∧ phase ≠ .build := by
  obtain ⟨-, slot, hslot, rfl⟩ := orderAt_eq_ok_iff.mp h
  obtain ⟨rfl, hphase⟩ := claim?_readSlot hclaim
  exact ⟨hslot, hphase⟩

end Vocabulary

namespace Position

variable {α : Type} {p : Position α}

/-- A choice is an entry, read for the unit of the step. -/
theorem choose_eq_ok_iff {step index : Nat} {choice : Choice} :
    p.choose step index = .ok choice ↔ choice.index = index ∧ ∃ unit,
      p.units.areas[step]? = some unit ∧
        p.vocab.orderAt index unit p.units.phase = .ok choice.order := by
  unfold choose
  constructor
  · intro h
    split at h
    · cases h
    · next unit hunit =>
      split at h
      · cases h
      · next horder =>
        cases h
        exact ⟨rfl, unit, hunit, horder⟩
  · rintro ⟨rfl, unit, hunit, horder⟩
    simp only [hunit, horder]

theorem index_of_choose {step index : Nat} {choice : Choice}
    (h : p.choose step index = .ok choice) : choice.index = index :=
  (choose_eq_ok_iff.mp h).1

theorem lt_size_of_choose {step index : Nat} {choice : Choice}
    (h : p.choose step index = .ok choice) : index < p.vocab.size := by
  obtain ⟨-, unit, -, horder⟩ := choose_eq_ok_iff.mp h
  obtain ⟨-, slot, hslot, -⟩ := Vocabulary.orderAt_eq_ok_iff.mp horder
  exact Vocabulary.exists_slot?_iff.mp ⟨slot, hslot⟩

/-- A choice passes its check if it is what its entry is read as. -/
theorem checkChoice_eq_ok_iff {step : Nat} {choice : Choice} :
    p.checkChoice step choice = .ok () ↔ p.choose step choice.index = .ok choice := by
  constructor
  · intro h
    unfold checkChoice at h
    split at h
    · cases h
    · obtain ⟨read, hread, h⟩ := bind_eq_ok_iff.mp h
      split at h
      · cases h
      · next hsame =>
        rw [ne_eq, not_not] at hsame
        have hindex := index_of_choose hread
        obtain ⟨index, order⟩ := read
        cases hindex
        cases hsame
        exact hread
  · intro h
    rw [checkChoice, if_neg (Nat.not_le.mpr (lt_size_of_choose h)), h]
    exact if_neg fun hne => hne rfl

/-- Choices pass their checks if each is what its entry is read as for the
unit of its step. -/
theorem checks_eq_ok_iff {choices : List Choice} :
    (choices.zipIdx.forM fun entry => p.checkChoice entry.2 entry.1) = .ok () ↔
      ∀ i choice, choices[i]? = some choice → p.choose i choice.index = .ok choice := by
  simp only [forM_eq_ok_iff, Prod.forall, List.mem_zipIdx_iff_getElem?, checkChoice_eq_ok_iff]
  exact forall_comm

/-- A chosen entry that claims an area is the destination entry of it. -/
theorem slot?_of_choose {step index : Nat} {choice : Choice} {area : Area}
    (h : p.choose step index = .ok choice) (hclaim : choice.order.claim? = some area) :
    p.vocab.slot? index = some (.destination area) ∧ p.units.phase ≠ .build := by
  obtain ⟨-, unit, -, horder⟩ := choose_eq_ok_iff.mp h
  exact Vocabulary.claim?_orderAt horder hclaim

/-- A choice of the build phase claims nothing. -/
theorem claimed_push {step index : Nat} {choice : Choice} (hphase : p.units.phase = .build)
    (h : p.choose step index = .ok choice) (s : Sequence) :
    (s.push choice).claimed = s.claimed := by
  rw [Sequence.push]
  cases hclaim : choice.order.claim? with
  | none => rfl
  | some area => exact absurd hphase (slot?_of_choose h hclaim).2

/-- Every entry of the vocabulary can be chosen at every step. -/
theorem exists_choose {step index : Nat} (hstep : step < p.numSteps)
    (hindex : index < p.vocab.size) : ∃ choice, p.choose step index = .ok choice := by
  obtain ⟨slot, hslot⟩ := Vocabulary.exists_slot?_iff.mpr hindex
  have hstep : step < p.units.areas.length := hstep
  have hunit : p.units.areas[step]? = some p.units.areas[step] := List.getElem?_eq_getElem hstep
  have hrange := p.inRange _ (List.getElem_mem hstep)
  refine ⟨⟨index, Vocabulary.readSlot p.units.areas[step] p.units.phase slot⟩,
    choose_eq_ok_iff.mpr ⟨rfl, _, hunit, ?_⟩⟩
  exact Vocabulary.orderAt_eq_ok_iff.mpr ⟨hrange, slot, hslot, rfl⟩

end Position

end OrderDecoding
