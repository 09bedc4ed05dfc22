/-
# `UnitList` — the units that orders are wanted for

Units are decoded one after the other in ascending order of their areas,
and what is chosen for one is history for the next, so the order is part
of the meaning of a list.  It is kept in the type: however the areas were
given, a `UnitList` holds them strictly ascending.  An area holds one
unit; a list that names one twice is refused with the SMALLEST area it
repeats.

The padded layout of a list has a fixed number of slots, `-1` in the
slots that no unit fills.
-/
import OrderDecoding.Error
import OrderDecoding.Word

namespace OrderDecoding

/-- Puts an area in front of the first that is not smaller. -/
def insertArea (area : Area) : List Area → List Area
  | [] => [area]
  | b :: rest => if area ≤ b then area :: b :: rest else b :: insertArea area rest

/-- The same areas in ascending order. -/
def sortAreas (areas : List Area) : List Area := areas.foldr insertArea []

/-- The first area that stands twice in a row. -/
def firstRepeat? : List Area → Option Area
  | a :: b :: rest => if a = b then some a else firstRepeat? (b :: rest)
  | _ => none

theorem mem_insertArea {x area : Area} {areas : List Area} :
    x ∈ insertArea area areas ↔ x = area ∨ x ∈ areas := by
  induction areas with
  | nil => simp [insertArea]
  | cons b rest ih =>
    rw [insertArea]
    split
    · simp
    · simp only [List.mem_cons, ih]
      constructor
      · rintro (h | h | h) <;> simp [h]
      · rintro (h | h | h) <;> simp [h]

theorem pairwise_insertArea {area : Area} {areas : List Area}
    (h : areas.Pairwise (· ≤ ·)) : (insertArea area areas).Pairwise (· ≤ ·) := by
  induction areas with
  | nil => simp [insertArea]
  | cons b rest ih =>
    obtain ⟨hb, hrest⟩ := List.pairwise_cons.mp h
    rw [insertArea]
    split
    · next hle =>
      refine List.pairwise_cons.mpr ⟨fun x hx => ?_, h⟩
      rcases List.mem_cons.mp hx with rfl | hx
      · exact hle
      · exact Nat.le_trans hle (hb x hx)
    · next hlt =>
      refine List.pairwise_cons.mpr ⟨fun x hx => ?_, ih hrest⟩
      rcases mem_insertArea.mp hx with rfl | hx
      · exact Nat.le_of_lt (Nat.lt_of_not_le hlt)
      · exact hb x hx

theorem pairwise_sortAreas (areas : List Area) : (sortAreas areas).Pairwise (· ≤ ·) := by
  induction areas with
  | nil => simp [sortAreas]
  | cons a rest ih => exact pairwise_insertArea ih

/-- An ascending list without a neighbour that repeats is strictly
ascending. -/
theorem pairwise_lt_of_firstRepeat? {areas : List Area} (h : areas.Pairwise (· ≤ ·))
    (hnone : firstRepeat? areas = none) : areas.Pairwise (· < ·) := by
  induction areas with
  | nil => exact List.Pairwise.nil
  | cons a rest ih =>
    obtain ⟨ha, hrest⟩ := List.pairwise_cons.mp h
    cases rest with
    | nil => simp
    | cons b rest =>
      rw [firstRepeat?] at hnone
      split at hnone
      · simp at hnone
      · next hne =>
        have hlt : (b :: rest).Pairwise (· < ·) := ih hrest hnone
        refine List.pairwise_cons.mpr ⟨fun x hx => ?_, hlt⟩
        have hab : a < b := Nat.lt_of_le_of_ne (ha b (List.mem_cons_self ..)) hne
        rcases List.mem_cons.mp hx with rfl | hx
        · exact hab
        · exact Nat.lt_trans hab ((List.pairwise_cons.mp hlt).1 x hx)

/-- The areas of the units of one side, and the phase they are ordered
in. -/
structure UnitList where
  areas : List Area
  phase : Phase := .movement
  ascending : areas.Pairwise (· < ·)
deriving DecidableEq

namespace UnitList

/-- The list of the given areas, in the movement phase. -/
def ofAreas (areas : List Area) : Except DecodeError UnitList :=
  match h : firstRepeat? (sortAreas areas) with
  | some area => .error (.argument (.repeatedArea area))
  | none =>
      .ok
        { areas := sortAreas areas
          ascending := pairwise_lt_of_firstRepeat? (pairwise_sortAreas areas) h }

def withPhase (u : UnitList) (phase : Phase) : UnitList := { u with phase }

def length (u : UnitList) : Nat := u.areas.length

def isEmpty (u : UnitList) : Bool := u.areas.isEmpty

/-- The units up to and including the one of a step. -/
def upTo (u : UnitList) (step : Nat) : List Area := u.areas.take (step + 1)

/-! ## The padded layout -/

/-- The first `slots` areas, then `-1` up to `slots`. -/
def padded (areas : List Area) (slots : Nat) : List Int :=
  let filled := (areas.take slots).map Word.signed
  filled ++ List.replicate (slots - filled.length) (-1)

def toPadded (u : UnitList) (slots : Nat) : List Int := padded u.areas slots

/-- The list of the slots that are filled; a negative slot is not. -/
def ofPadded (slots : List Int) : Except DecodeError UnitList :=
  ofAreas ((slots.filter fun s => 0 ≤ s).map Int.toNat)

end UnitList
end OrderDecoding
