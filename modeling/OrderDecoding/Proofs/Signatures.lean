/-
# `Proofs.Signatures` — entries and orders determine each other, but once

For one unit in one phase an entry is read as its slot, and a slot as an
order.  The first loses nothing (`Vocabulary.slot?_eq_some_iff`).  The second
loses one thing: in the build phase to build where the unit stands is both
what the kind entry says and what the destination entry of that area says
(`Vocabulary.ReadAlike`).  Everything else is told apart: kinds name no
second area, and supports are of a kind that no other slot with an area is
read as.

So two lists of choices that were read well have equal orders exactly if
their entries are read alike step by step (`Position.WellRead.orders_eq_iff`),
and out of the build phase exactly if they have the same signature.  Since
duplicates are told by signature, in the build phase alone may a pool hold
the same orders twice.
-/
import OrderDecoding.Candidate
import OrderDecoding.Proofs.Building
import OrderDecoding.Proofs.Refusals
import OrderDecoding.Proofs.Unhindered

namespace OrderDecoding

/-! ## One unit -/

namespace Vocabulary

/-- Two entries that mean the same for a unit: they are one, or they are the
two ways to say that it builds where it stands. -/
def ReadAlike (v : Vocabulary) (unit : Area) (phase : Phase) (index index' : Nat) : Prop :=
  index = index' ∨ phase = .build ∧
    (index = OrderKind.build.index ∧ index' = v.destinationIndex unit ∨
      index = v.destinationIndex unit ∧ index' = OrderKind.build.index)

variable {v : Vocabulary} {unit : Area} {phase : Phase} {index index' : Nat}

/-- Out of the build phase no two entries mean the same. -/
theorem readAlike_iff (hphase : phase ≠ .build) :
    v.ReadAlike unit phase index index' ↔ index = index' :=
  or_iff_left fun h => hphase h.1

/-- Slots are read apart, but for the two ways to build where the unit
stands. -/
theorem readSlot_eq_iff {slot slot' : Slot} :
    readSlot unit phase slot = readSlot unit phase slot' ↔
      slot = slot' ∨ phase = .build ∧
        (slot = .kind .build ∧ slot' = .destination unit ∨
          slot = .destination unit ∧ slot' = .kind .build) := by
  cases slot with
  | kind k =>
    cases slot' with
    | kind k' => simp [readSlot]
    | source target => simp [readSlot, Order.support]
    | destination area =>
      cases phase <;> simp [readSlot, Order.move, Order.retreat, Order.build, eq_comm]
  | source target =>
    cases slot' with
    | kind k => simp [readSlot, Order.support]
    | source target' => simp [readSlot, Order.support]
    | destination area =>
      cases phase <;> simp [readSlot, Order.support, Order.move, Order.retreat, Order.build]
  | destination area =>
    cases slot' with
    | kind k =>
      cases phase <;> simp [readSlot, Order.move, Order.retreat, Order.build, eq_comm, and_comm]
    | source target =>
      cases phase <;> simp [readSlot, Order.support, Order.move, Order.retreat, Order.build]
    | destination area' =>
      cases phase <;> simp [readSlot, Order.move, Order.retreat, Order.build]

variable {order order' : Order}

theorem exists_orderAt_iff (hunit : unit < v.numAreas) :
    (∃ order, v.orderAt index unit phase = .ok order) ↔ index < v.size := by
  rw [← exists_slot?_iff]
  constructor
  · rintro ⟨order, h⟩
    obtain ⟨-, slot, hslot, -⟩ := orderAt_eq_ok_iff.mp h
    exact ⟨slot, hslot⟩
  · rintro ⟨slot, hslot⟩
    exact ⟨_, orderAt_eq_ok_iff.mpr ⟨hunit, slot, hslot, rfl⟩⟩

/-- Of slots of the map, those with the same entry are the same. -/
theorem slot_eq_iff {slot : Slot} (other : Slot) (h : v.slot? index = some slot)
    (hother : v.OnMap other) : slot = other ↔ index = v.indexOf other := by
  constructor
  · rintro rfl
    exact (slot?_eq_some_iff.mp h).1
  · rintro rfl
    exact Option.some.inj (h.symm.trans (slot?_indexOf hother))

/-- Entries are read as the same order exactly if they are read alike. -/
theorem orderAt_eq_iff (h : v.orderAt index unit phase = .ok order)
    (h' : v.orderAt index' unit phase = .ok order') :
    order = order' ↔ v.ReadAlike unit phase index index' := by
  obtain ⟨hunit, slot, hslot, rfl⟩ := orderAt_eq_ok_iff.mp h
  obtain ⟨-, slot', hslot', rfl⟩ := orderAt_eq_ok_iff.mp h'
  obtain ⟨hindex', hmap'⟩ := slot?_eq_some_iff.mp hslot'
  have hbuild : v.OnMap (.kind .build) := trivial
  have hhere : v.OnMap (.destination unit) := hunit
  rw [readSlot_eq_iff, slot_eq_iff _ hslot hmap', ← hindex', slot_eq_iff _ hslot hbuild,
    slot_eq_iff _ hslot' hhere, slot_eq_iff _ hslot hhere, slot_eq_iff _ hslot' hbuild]
  rfl

/-- The order claims what its entry is the destination of, out of the build
phase. -/
theorem claim?_orderAt_iff {area : Area} (h : v.orderAt index unit phase = .ok order) :
    order.claim? = some area ↔ phase ≠ .build ∧ v.slot? index = some (.destination area) := by
  constructor
  · intro hclaim
    exact (claim?_orderAt h hclaim).symm
  · rintro ⟨hphase, hslot⟩
    exact claim?_orderAt_destination hphase hslot h

end Vocabulary

/-! ## All units -/

namespace Position.WellRead

variable {α : Type} {p : Position α} {choices choices' : List Choice}

/-- Choices of a step have the same order exactly if their entries are read
alike. -/
theorem order_eq_iff (h : p.WellRead choices) (h' : p.WellRead choices') {i : Nat}
    {choice choice' : Choice} {unit : Area} (hchoice : choices[i]? = some choice)
    (hchoice' : choices'[i]? = some choice') (hunit : p.units.areas[i]? = some unit) :
    choice.order = choice'.order ↔
      p.vocab.ReadAlike unit p.units.phase choice.index choice'.index := by
  obtain ⟨-, u, hu, horder⟩ := choose_eq_ok_iff.mp (h.read i choice hchoice)
  obtain ⟨-, u', hu', horder'⟩ := choose_eq_ok_iff.mp (h'.read i choice' hchoice')
  obtain rfl := Option.some.inj (hunit.symm.trans hu)
  obtain rfl := Option.some.inj (hunit.symm.trans hu')
  exact Vocabulary.orderAt_eq_iff horder horder'

/-- Choices that were read well have the same orders exactly if their entries
are read alike at every step. -/
theorem orders_eq_iff (h : p.WellRead choices) (h' : p.WellRead choices') :
    choices.map (·.order) = choices'.map (·.order) ↔ choices.length = choices'.length ∧
      ∀ (i index index' : Nat) (unit : Area), (choices.map (·.index))[i]? = some index →
        (choices'.map (·.index))[i]? = some index' → p.units.areas[i]? = some unit →
        p.vocab.ReadAlike unit p.units.phase index index' := by
  constructor
  · intro heq
    refine ⟨by simpa using congrArg List.length heq, ?_⟩
    intro i index index' unit hindex hindex' hunit
    rw [List.getElem?_map, Option.map_eq_some_iff] at hindex hindex'
    obtain ⟨choice, hchoice, rfl⟩ := hindex
    obtain ⟨choice', hchoice', rfl⟩ := hindex'
    refine (h.order_eq_iff h' hchoice hchoice' hunit).mp ?_
    simpa [hchoice, hchoice'] using congrArg (·[i]?) heq
  · rintro ⟨hlength, halike⟩
    refine eq_of_getElem? (by simpa using hlength) fun i order order' horder horder' => ?_
    rw [List.getElem?_map, Option.map_eq_some_iff] at horder horder'
    obtain ⟨choice, hchoice, rfl⟩ := horder
    obtain ⟨choice', hchoice', rfl⟩ := horder'
    obtain ⟨-, unit, hunit, -⟩ := choose_eq_ok_iff.mp (h.read i choice hchoice)
    refine (h.order_eq_iff h' hchoice hchoice' hunit).mpr (halike i _ _ unit ?_ ?_ hunit)
    · rw [List.getElem?_map, hchoice, Option.map_some]
    · rw [List.getElem?_map, hchoice', Option.map_some]

/-- The entries say what the orders are. -/
theorem eq_of_indices_eq (h : p.WellRead choices) (h' : p.WellRead choices')
    (heq : choices.map (·.index) = choices'.map (·.index)) : choices = choices' := by
  refine eq_of_getElem? (by simpa using congrArg List.length heq) ?_
  intro i choice choice' hchoice hchoice'
  have hindex : choice.index = choice'.index := by
    simpa [hchoice, hchoice'] using congrArg (·[i]?) heq
  have hread := h.read i choice hchoice
  rw [hindex, h'.read i choice' hchoice'] at hread
  exact (Except.ok.inj hread).symm

/-- Out of the build phase the orders say what the entries are. -/
theorem orders_eq_iff_indices_eq (hphase : p.units.phase ≠ .build) (h : p.WellRead choices)
    (h' : p.WellRead choices') :
    choices.map (·.order) = choices'.map (·.order) ↔
      choices.map (·.index) = choices'.map (·.index) := by
  constructor
  · intro horders
    obtain ⟨hlength, halike⟩ := (h.orders_eq_iff h').mp horders
    refine eq_of_getElem? (by simpa using hlength) fun i index index' hindex hindex' => ?_
    obtain ⟨choice, hchoice, -⟩ := Option.map_eq_some_iff.mp (List.getElem?_map ▸ hindex)
    obtain ⟨-, unit, hunit, -⟩ := choose_eq_ok_iff.mp (h.read i choice hchoice)
    exact (Vocabulary.readAlike_iff hphase).mp (halike i index index' unit hindex hindex' hunit)
  · intro hindices
    rw [h.eq_of_indices_eq h' hindices]

end Position.WellRead

variable {α : Type} [Score α]

open Vocabulary in
/-- Entries and orders determine each other.  For a unit of the map in any
phase every entry of the vocabulary, and nothing else, is read as an order;
two of them are read as the same order exactly if they are read alike, which
out of the build phase makes them one; and the order claims an area exactly
if its entry is the destination of that, out of the build phase.  So two
candidates that a replay accepts have the same orders exactly if their
signatures are read alike step by step: out of the build phase, if they are
equal. -/
theorem signatures_determine_orders :
    (∀ (v : Vocabulary) (unit : Area) (phase : Phase), unit < v.numAreas →
      (∀ index, (∃ order, v.orderAt index unit phase = .ok order) ↔ index < 7 + 2 * v.numAreas) ∧
      (∀ index index' order order', v.orderAt index unit phase = .ok order →
        v.orderAt index' unit phase = .ok order' →
        (order = order' ↔ v.ReadAlike unit phase index index') ∧
          (phase ≠ .build → (order = order' ↔ index = index'))) ∧
      ∀ index order area, v.orderAt index unit phase = .ok order →
        (order.claim? = some area ↔ phase ≠ .build ∧ v.slot? index = some (.destination area))) ∧
    ∀ (p : Position α) (c c' : Candidate α),
      (∀ cause, p.sequenceLogProb c.choices ≠ .error (.argument cause)) →
      (∀ cause, p.sequenceLogProb c'.choices ≠ .error (.argument cause)) →
      (c.orders = c'.orders ↔ c.length = c'.length ∧
        ∀ (i : Nat) (index index' : Nat) (unit : Area), c.signature[i]? = some index →
          c'.signature[i]? = some index' → p.units.areas[i]? = some unit →
          p.vocab.ReadAlike unit p.units.phase index index') ∧
      (p.units.phase ≠ .build → (c.orders = c'.orders ↔ c.signature = c'.signature)) ∧
      (c.signature = c'.signature → c.choices = c'.choices) := by
  refine ⟨fun v unit phase hunit => ⟨fun index => ?entry, fun index index' order order' h h' => ?_,
    fun index order area h => claim?_orderAt_iff h⟩, fun p c c' hc hc' => ?candidates⟩
  case entry => exact exists_orderAt_iff hunit
  · exact ⟨orderAt_eq_iff h h', fun hphase => (orderAt_eq_iff h h').trans (readAlike_iff hphase)⟩
  case candidates =>
    have hread := Position.wellRead_iff_accepted.mpr hc
    have hread' := Position.wellRead_iff_accepted.mpr hc'
    exact ⟨hread.orders_eq_iff hread', fun hphase => hread.orders_eq_iff_indices_eq hphase hread',
      hread.eq_of_indices_eq hread'⟩

/-- The second unit is built where it stands: by its kind, or by the area. -/
def rebuilt (index : Nat) (score : Stark) : Candidate Stark :=
  { choices := [⟨10, .build 1⟩, ⟨index, .build 1⟩], score, origin := .sample }

/-- Two candidates of the build phase with different signatures give the same
orders, and the entries in which they differ are those two. -/
theorem rebuilt_orders_eq :
    (rebuilt 5 Score.negInf).orders = (rebuilt 10 (0 : Float)).orders ∧
      (rebuilt 5 Score.negInf).signature ≠ (rebuilt 10 (0 : Float)).signature ∧
      rebuilding.vocab.ReadAlike 1 .build 5 10 := by
  have hkind : rebuilding.sequenceLogProb (rebuilt 5 Score.negInf).choices =
      .ok Score.negInf := by decide +kernel
  have harea : rebuilding.sequenceLogProb (rebuilt 10 (0 : Float)).choices =
      .ok (0 : Float) := by decide +kernel
  obtain ⟨-, hcandidates⟩ := signatures_determine_orders (α := Stark)
  obtain ⟨horders, -, -⟩ := hcandidates rebuilding (rebuilt 5 Score.negInf) (rebuilt 10 (0 : Float))
    (fun _ h => by rw [hkind] at h; cases h) (fun _ h => by rw [harea] at h; cases h)
  have heq : (rebuilt 5 Score.negInf).orders = (rebuilt 10 (0 : Float)).orders := rfl
  exact ⟨heq, by decide, (horders.mp heq).2 1 5 10 1 rfl rfl rfl⟩

end OrderDecoding
