/-
# `Proofs.Canonical` — a unit list has one form

Areas come to a unit list from three sides: as they are, out of padded slots,
and out of a text.  Each time they are sorted and then neighbours are
compared.  In ascending order equal areas ARE neighbours, and the first that
are equal are the least that repeat (`firstRepeat?_eq_some_iff`).  So the list
is refused exactly if an area repeats, and named is the least of those; and
where there is a list, it holds the areas that were given in the one way that
ascends (`UnitList.ofAreas_eq_ok_iff`).  The order they were given in is lost.

The padded layout has room for areas below `2 ^ 63`: what is larger comes out
with a sign and reads as an empty slot.  Below that nothing is lost on the way
there and back.
-/
import Mathlib
import OrderDecoding.Format.Order
import OrderDecoding.Proofs.Runs

namespace OrderDecoding

/-! ## Sorting -/

theorem insertArea_eq_orderedInsert (area : Area) (areas : List Area) :
    insertArea area areas = areas.orderedInsert (· ≤ ·) area := by
  induction areas with
  | nil => rfl
  | cons b rest ih => rw [insertArea, List.orderedInsert, ih]

theorem sortAreas_eq_insertionSort (areas : List Area) :
    sortAreas areas = areas.insertionSort (· ≤ ·) := by
  induction areas with
  | nil => rfl
  | cons a rest ih =>
    rw [List.insertionSort_cons, ← ih, ← insertArea_eq_orderedInsert]
    rfl

theorem perm_sortAreas (areas : List Area) : (sortAreas areas).Perm areas := by
  rw [sortAreas_eq_insertionSort]
  exact List.perm_insertionSort _ areas

section

variable {a b area : Area} {areas rest : List Area}

/-- Two equal areas in front of an ascending list are the least that
repeat. -/
theorem isLeast_duplicate (h : (a :: a :: rest).Pairwise (· ≤ ·)) :
    IsLeast {x | List.Duplicate x (a :: a :: rest)} a := by
  refine ⟨List.mem_cons_self.duplicate_cons_self, fun x hx => ?_⟩
  rcases List.mem_cons.mp hx.mem with rfl | hmem
  · exact Nat.le_refl _
  · exact (List.pairwise_cons.mp h).1 x hmem

/-- An area in front of an ascending list that is not the next one does not
repeat: it is smaller than all that follow. -/
theorem duplicate_cons_iff_of_ne (h : (a :: b :: rest).Pairwise (· ≤ ·)) (hne : a ≠ b) :
    List.Duplicate area (a :: b :: rest) ↔ List.Duplicate area (b :: rest) := by
  obtain ⟨ha, hrest⟩ := List.pairwise_cons.mp h
  rw [List.duplicate_cons_iff]
  refine or_iff_right ?_
  rintro ⟨rfl, hmem⟩
  rcases List.mem_cons.mp hmem with rfl | hmem
  · exact hne rfl
  · have hba : b ≤ a := (List.pairwise_cons.mp hrest).1 a hmem
    exact hne (Nat.le_antisymm (ha b List.mem_cons_self) hba)

/-- In ascending order the first area that is equal to the next is the least
that repeats. -/
theorem firstRepeat?_eq_some_iff (h : areas.Pairwise (· ≤ ·)) :
    firstRepeat? areas = some area ↔ IsLeast {a | List.Duplicate a areas} area := by
  induction areas with
  | nil =>
    constructor
    · intro hnone
      cases hnone
    · intro hleast
      exact absurd hleast.1 (List.not_duplicate_nil area)
  | cons a rest ih =>
    cases rest with
    | nil =>
      constructor
      · intro hnone
        cases hnone
      · intro hleast
        exact absurd hleast.1 (List.not_duplicate_singleton area a)
    | cons b rest =>
      rw [firstRepeat?]
      split
      · next heq =>
        subst heq
        rw [Option.some.injEq]
        constructor
        · rintro rfl
          exact isLeast_duplicate h
        · intro hleast
          exact (isLeast_duplicate h).unique hleast
      · next hne =>
        simp only [duplicate_cons_iff_of_ne h hne]
        exact ih (List.pairwise_cons.mp h).2

end

/-! ## Readers that can turn a value down -/

namespace Json

variable {β γ : Type} {read : Reader β} {convert : β → Except String γ} {s rest : List Char}

theorem refine_eq_ok_iff {y : γ} : refine read convert s = .ok (y, rest) ↔
    ∃ x, read s = .ok (x, rest) ∧ convert x = .ok y := by
  unfold refine
  rw [bind_eq_ok_iff]
  constructor
  · rintro ⟨⟨x, rest'⟩, hx, h⟩
    dsimp only at h
    split at h
    · next hy =>
      cases h
      exact ⟨x, hx, hy⟩
    · cases h
  · rintro ⟨x, hx, hy⟩
    refine ⟨(x, rest), hx, ?_⟩
    dsimp only
    rw [hy]

/-- A value is turned down for the reason that it does not convert. -/
theorem refine_eq_error_iff {fault : Fault} : refine read convert s = .error fault ↔
    read s = .error fault ∨ ∃ x rest reason, read s = .ok (x, rest) ∧
      convert x = .error reason ∧ fault = .refused reason := by
  unfold refine
  rw [bind_eq_error_iff]
  refine or_congr_right ?_
  constructor
  · rintro ⟨⟨x, rest⟩, hx, h⟩
    dsimp only at h
    split at h
    · cases h
    · next reason hreason =>
      cases h
      exact ⟨x, rest, reason, hx, hreason, rfl⟩
  · rintro ⟨x, rest, reason, hx, hreason, rfl⟩
    refine ⟨(x, rest), hx, ?_⟩
    dsimp only
    rw [hreason]

end Json

namespace UnitList

variable {areas areas' : List Area} {u : UnitList} {e : DecodeError}

/-! ## From areas -/

/-- Areas are refused with the least that repeats. -/
theorem ofAreas_eq_error_iff : ofAreas areas = .error e ↔
    ∃ area, IsLeast {a | 2 ≤ areas.count a} area ∧ e = .argument (.repeatedArea area) := by
  have hrepeat {area : Area} : firstRepeat? (sortAreas areas) = some area ↔
      IsLeast {a | 2 ≤ areas.count a} area := by
    simp only [firstRepeat?_eq_some_iff (pairwise_sortAreas areas),
      List.duplicate_iff_two_le_count, (perm_sortAreas areas).count_eq]
  simp only [← hrepeat]
  unfold ofAreas
  constructor
  · intro h
    split at h
    · next area harea =>
      cases h
      exact ⟨area, harea, rfl⟩
    · cases h
  · rintro ⟨area, harea, rfl⟩
    split
    · next other hother => rw [Option.some.inj (harea.symm.trans hother)]
    · next hnone =>
      rw [harea] at hnone
      cases hnone

/-- A list is known by the areas in it and its phase. -/
theorem eq_of_perm {u' : UnitList} (hperm : u.areas.Perm u'.areas) (hphase : u.phase = u'.phase) :
    u = u' := by
  have hareas : u.areas = u'.areas := hperm.eq_of_pairwise' (u.ascending.imp Nat.le_of_lt)
    (u'.ascending.imp Nat.le_of_lt)
  cases u with
  | mk ascending phase h =>
    cases u' with
    | mk ascending' phase' h' =>
      obtain rfl : ascending = ascending' := hareas
      obtain rfl : phase = phase' := hphase
      rfl

theorem nodup (u : UnitList) : u.areas.Nodup := u.ascending.imp Nat.ne_of_lt

theorem perm_of_ofAreas (h : ofAreas areas = .ok u) :
    u.areas.Perm areas ∧ u.phase = .movement := by
  unfold ofAreas at h
  split at h
  · cases h
  · cases h
    exact ⟨perm_sortAreas areas, rfl⟩

theorem exists_ofAreas_iff : (∃ u, ofAreas areas = .ok u) ↔ areas.Nodup := by
  constructor
  · rintro ⟨u, hu⟩
    exact (perm_of_ofAreas hu).1.nodup u.nodup
  · intro hnodup
    by_contra hnone
    obtain ⟨e, he⟩ := eq_error_of_not_ok hnone
    obtain ⟨area, ⟨hcount, -⟩, -⟩ := ofAreas_eq_error_iff.mp he
    exact absurd (List.nodup_iff_count_le_one.mp hnodup area) (Nat.not_le.mpr hcount)

/-- Areas make the list that holds just them. -/
theorem ofAreas_eq_ok_iff : ofAreas areas = .ok u ↔ u.areas.Perm areas ∧ u.phase = .movement := by
  refine ⟨perm_of_ofAreas, ?_⟩
  rintro ⟨hperm, hphase⟩
  obtain ⟨u', hu'⟩ := exists_ofAreas_iff.mpr (hperm.nodup u.nodup)
  obtain ⟨hperm', hphase'⟩ := perm_of_ofAreas hu'
  rw [hu', eq_of_perm (hperm'.trans hperm.symm) (hphase'.trans hphase.symm)]

theorem ofAreas_congr (h : areas.Perm areas') : ofAreas areas = ofAreas areas' := by
  cases hresult : ofAreas areas with
  | ok u =>
    obtain ⟨hperm, hphase⟩ := perm_of_ofAreas hresult
    exact (ofAreas_eq_ok_iff.mpr ⟨hperm.trans h, hphase⟩).symm
  | error e =>
    rw [ofAreas_eq_error_iff] at hresult
    simp only [h.count_eq] at hresult
    exact (ofAreas_eq_error_iff.mpr hresult).symm

/-- What becomes of areas when a list is made of them for a phase. -/
structure Canonical (areas : List Area) (phase : Phase) (result : Except DecodeError UnitList) :
    Prop where
  /-- There is a list exactly if no area repeats. -/
  exists_iff : (∃ u, result = .ok u) ↔ areas.Nodup
  /-- Otherwise the least that repeats is named. -/
  error_iff : ∀ e, result = .error e ↔
    ∃ area, IsLeast {a | 2 ≤ areas.count a} area ∧ e = .argument (.repeatedArea area)
  /-- The list holds the areas, strictly ascending. -/
  list : ∀ u, result = .ok u → u.areas.Pairwise (· < ·) ∧ (∀ a, a ∈ u.areas ↔ a ∈ areas) ∧
    u.phase = phase

theorem canonical_ofAreas (areas : List Area) : Canonical areas .movement (ofAreas areas) where
  exists_iff := exists_ofAreas_iff
  error_iff _ := ofAreas_eq_error_iff
  list u h := by
    obtain ⟨hperm, hphase⟩ := perm_of_ofAreas h
    exact ⟨u.ascending, fun _ => hperm.mem_iff, hphase⟩

/-! ## From texts -/

theorem canonical_toUnitList (w : WrittenUnits) : Canonical w.areas w.phase w.toUnitList where
  exists_iff := by
    rw [← exists_ofAreas_iff]
    constructor
    · rintro ⟨u, h⟩
      obtain ⟨u', hu', -⟩ := bind_eq_ok_iff.mp h
      exact ⟨u', hu'⟩
    · rintro ⟨u, hu⟩
      exact ⟨_, bind_eq_ok_iff.mpr ⟨u, hu, rfl⟩⟩
  error_iff e := by
    rw [← ofAreas_eq_error_iff, WrittenUnits.toUnitList, bind_eq_error_iff, or_iff_left]
    rintro ⟨_, _, h⟩
    cases h
  list u h := by
    obtain ⟨u', hu', h⟩ := bind_eq_ok_iff.mp h
    cases h
    obtain ⟨hperm, -⟩ := perm_of_ofAreas hu'
    exact ⟨u'.ascending, fun _ => hperm.mem_iff, rfl⟩

theorem toUnitList_congr {w w' : WrittenUnits} (hareas : w.areas.Perm w'.areas)
    (hphase : w.phase = w'.phase) : w.toUnitList = w'.toUnitList := by
  rw [WrittenUnits.toUnitList, WrittenUnits.toUnitList, ofAreas_congr hareas, hphase]

variable {s rest : List Char}

/-- What is read from a text is the list that its areas make. -/
theorem reader_eq_ok_iff : UnitList.reader s = .ok (u, rest) ↔
    ∃ w, WrittenUnits.reader s = .ok (w, rest) ∧ w.toUnitList = .ok u := by
  unfold UnitList.reader
  rw [Json.refine_eq_ok_iff]
  refine exists_congr fun w => and_congr_right fun _ => ?_
  cases w.toUnitList <;> simp [Except.mapError]

/-- A text is turned down for what is wrong with it as a text, and otherwise
if an area repeats; the reason names the least that does. -/
theorem reader_eq_error_iff {fault : Json.Fault} : UnitList.reader s = .error fault ↔
    WrittenUnits.reader s = .error fault ∨
      ∃ w rest area, WrittenUnits.reader s = .ok (w, rest) ∧
        IsLeast {a | 2 ≤ w.areas.count a} area ∧
        fault = .refused ("invalid argument: " ++ (ArgumentError.repeatedArea area).message) := by
  unfold UnitList.reader
  rw [Json.refine_eq_error_iff]
  refine or_congr_right (exists_congr fun w => exists_congr fun rest => ?_)
  constructor
  · rintro ⟨reason, hw, hreason, rfl⟩
    cases hunits : w.toUnitList with
    | ok u =>
      rw [hunits] at hreason
      cases hreason
    | error e =>
      obtain ⟨area, hleast, rfl⟩ := ((canonical_toUnitList w).error_iff e).mp hunits
      rw [hunits] at hreason
      cases hreason
      exact ⟨area, hw, hleast, rfl⟩
  · rintro ⟨area, hw, hleast, rfl⟩
    have hunits : w.toUnitList = .error (.argument (.repeatedArea area)) :=
      ((canonical_toUnitList w).error_iff _).mpr ⟨area, hleast, rfl⟩
    refine ⟨_, hw, ?_, rfl⟩
    rw [hunits]
    rfl

/-! ## The padded layout -/

theorem ofPadded_congr {slots slots' : List Int} (h : slots.Perm slots') :
    ofPadded slots = ofPadded slots' :=
  ofAreas_congr ((h.filter _).map _)

theorem signed_eq {n : Nat} (h : n < 2 ^ 63) : Word.signed n = n := by
  unfold Word.signed Word.bound
  rw [Int.bmod_eq_of_le] <;> omega

/-- Areas that are read without a sign fill the first slots. -/
theorem padded_eq (hareas : ∀ a ∈ areas, a < 2 ^ 63) {m : Nat} (hm : areas.length ≤ m) :
    padded areas m = areas.map (Nat.cast : Nat → Int) ++
      List.replicate (m - areas.length) (-1) := by
  have hsigned : areas.map Word.signed = areas.map (Nat.cast : Nat → Int) :=
    List.map_congr_left fun a ha => signed_eq (hareas a ha)
  rw [padded, List.take_of_length_le hm, hsigned, List.length_map]

/-- There and back. -/
theorem ofPadded_toPadded (hareas : ∀ a ∈ u.areas, a < 2 ^ 63) {m : Nat} (hm : u.length ≤ m) :
    ofPadded (u.toPadded m) = .ok (u.withPhase .movement) := by
  have hslots : ((u.toPadded m).filter fun s => 0 ≤ s).map Int.toNat = u.areas := by
    rw [toPadded, padded_eq hareas hm, List.filter_append, List.filter_eq_self.mpr,
      List.filter_eq_nil_iff.mpr, List.append_nil, List.map_map]
    · exact List.map_id'' (fun a => Int.toNat_natCast a) _
    · intro s hs
      rw [List.eq_of_mem_replicate hs]
      decide
    · intro s hs
      obtain ⟨a, -, rfl⟩ := List.mem_map.mp hs
      exact decide_eq_true (Int.natCast_nonneg a)
  rw [ofPadded, hslots]
  exact ofAreas_eq_ok_iff.mpr ⟨List.Perm.refl _, rfl⟩

/-- And back again: the slots that were filled, in ascending order. -/
theorem toPadded_of_ofPadded {slots : List Int} (hslots : ∀ s ∈ slots, s < 2 ^ 63) {m : Nat}
    (hm : (slots.filter fun s => 0 ≤ s).length ≤ m) (h : ofPadded slots = .ok u) :
    u.toPadded m = (slots.filter fun s => 0 ≤ s).insertionSort (· ≤ ·) ++
      List.replicate (m - (slots.filter fun s => 0 ≤ s).length) (-1) := by
  generalize hfilled : slots.filter (fun s => decide (0 ≤ s)) = filled at *
  have hmem : ∀ s ∈ filled, 0 ≤ s ∧ s < 2 ^ 63 := by
    rintro s hs
    rw [← hfilled, List.mem_filter, decide_eq_true_iff] at hs
    exact ⟨hs.2, hslots s hs.1⟩
  have hperm : u.areas.Perm (filled.map Int.toNat) := by
    rw [ofPadded, hfilled] at h
    exact (perm_of_ofAreas h).1
  have hsorted : u.areas = (filled.map Int.toNat).insertionSort (· ≤ ·) := by
    refine (hperm.trans (List.perm_insertionSort _ _).symm).eq_of_pairwise'
      (u.ascending.imp Nat.le_of_lt) (List.pairwise_insertionSort _ _)
  have hback : (filled.map Int.toNat).map (Nat.cast : Nat → Int) = filled := by
    rw [List.map_map]
    exact (List.map_congr_left fun s hs => Int.toNat_of_nonneg (hmem s hs).1).trans
      (List.map_id filled)
  have hlength : u.areas.length = filled.length := by rw [hperm.length_eq, List.length_map]
  have hareas : ∀ a ∈ u.areas, a < 2 ^ 63 := by
    intro a ha
    obtain ⟨s, hs, rfl⟩ := List.mem_map.mp (hperm.mem_iff.mp ha)
    exact (Int.toNat_lt (hmem s hs).1).mpr (by exact_mod_cast (hmem s hs).2)
  rw [toPadded, padded_eq hareas (hlength ▸ hm), hlength, hsorted,
    List.map_insertionSort (· ≤ ·) (· ≤ ·) _ _ fun a _ b _ => Int.ofNat_le.symm, hback]

/-- A unit list has one form.  Areas, filled slots and the areas of a text
make a list exactly if none of them repeats, and otherwise the least that does
is named; the list holds them strictly ascending, so it is the same in
whichever order they came.  A text is read as the list that its areas make, and
one that says areas which make none is turned down with the least that repeats
named.
In the padded layout a list of areas below `2 ^ 63` is read back as it was,
but for its phase, and slots are written back in ascending order with the
empty ones behind. -/
theorem unit_lists_are_canonical :
    (∀ areas, Canonical areas .movement (ofAreas areas)) ∧
    (∀ slots : List Int, Canonical ((slots.filter fun s => 0 ≤ s).map Int.toNat) .movement
      (ofPadded slots)) ∧
    (∀ w : WrittenUnits, Canonical w.areas w.phase w.toUnitList) ∧
    (∀ s : List Char,
      (∀ u rest, UnitList.reader s = .ok (u, rest) ↔
        ∃ w, WrittenUnits.reader s = .ok (w, rest) ∧ w.toUnitList = .ok u) ∧
      ∀ fault, UnitList.reader s = .error fault ↔ WrittenUnits.reader s = .error fault ∨
        ∃ w rest area, WrittenUnits.reader s = .ok (w, rest) ∧
          IsLeast {a | 2 ≤ w.areas.count a} area ∧
          fault = .refused ("invalid argument: " ++ (ArgumentError.repeatedArea area).message)) ∧
    (∀ areas areas' : List Area, areas.Perm areas' → ofAreas areas = ofAreas areas') ∧
    (∀ slots slots' : List Int, slots.Perm slots' → ofPadded slots = ofPadded slots') ∧
    (∀ w w' : WrittenUnits, w.areas.Perm w'.areas → w.phase = w'.phase →
      w.toUnitList = w'.toUnitList) ∧
    (∀ (u : UnitList) (m : Nat), (∀ a ∈ u.areas, a < 2 ^ 63) → u.length ≤ m →
      ofPadded (u.toPadded m) = .ok (u.withPhase .movement)) ∧
    ∀ (slots : List Int) (m : Nat), (∀ s ∈ slots, s < 2 ^ 63) →
      (slots.filter fun s => 0 ≤ s).Nodup → (slots.filter fun s => 0 ≤ s).length ≤ m →
      ∃ u, ofPadded slots = .ok u ∧
        u.toPadded m = (slots.filter fun s => 0 ≤ s).insertionSort (· ≤ ·) ++
          List.replicate (m - (slots.filter fun s => 0 ≤ s).length) (-1) := by
  refine ⟨canonical_ofAreas, fun slots => canonical_ofAreas _, canonical_toUnitList,
    fun s => ⟨fun u rest => reader_eq_ok_iff, fun fault => reader_eq_error_iff⟩,
    fun _ _ => ofAreas_congr, fun _ _ => ofPadded_congr, fun _ _ => toUnitList_congr,
    fun u m hareas hm => ofPadded_toPadded hareas hm, fun slots m hslots hnodup hm => ?_⟩
  have hareas : ((slots.filter fun s => 0 ≤ s).map Int.toNat).Nodup := by
    refine hnodup.map_on fun s hs t ht hst => ?_
    rw [List.mem_filter, decide_eq_true_iff] at hs ht
    rw [← Int.toNat_of_nonneg hs.2, hst, Int.toNat_of_nonneg ht.2]
  obtain ⟨u, hu⟩ := exists_ofAreas_iff.mpr hareas
  exact ⟨u, hu, toPadded_of_ofPadded hslots hm hu⟩

/-- Units in two areas, ordered in a phase. -/
def pair (a b : Area) (phase : Phase) (h : a < b := by decide) : UnitList :=
  { areas := [a, b], phase, ascending := by simpa using h }

/-- Of two areas that repeat the smaller is named; filled slots go back in
ascending order; and a text is put in order, in its phase, or refused for the
smaller area. -/
theorem pair_is_canonical :
    (∃ area, IsLeast {a | 2 ≤ [9, 4, 7, 4, 9].count a} area ∧
      ofAreas [9, 4, 7, 4, 9] = .error (.argument (.repeatedArea area))) ∧
    ofPadded [12, -1, 5] = .ok (pair 5 12 .movement) ∧
    (pair 5 12 .movement).toPadded 4 = [5, 12, -1, -1] ∧
    ofPadded ((pair 5 12 .movement).toPadded 4) = .ok (pair 5 12 .movement) ∧
    UnitList.reader "\x7b\"areas\":[9,1],\"phase\":\"retreat\"\x7d".toList =
      .ok (pair 1 9 .retreat, []) ∧
    UnitList.reader "\x7b\"areas\":[9,4,7,4,9]\x7d".toList =
      .error (.refused "invalid argument: area 4 appears twice in the unit list") := by
  obtain ⟨hareas, -, -, htexts, -, -, -, hthere, hback⟩ := unit_lists_are_canonical
  have hrepeat : ofAreas [9, 4, 7, 4, 9] = .error (.argument (.repeatedArea 4)) := rfl
  have hslots : ofPadded [12, -1, 5] = .ok (pair 5 12 .movement) := rfl
  have hwritten : WrittenUnits.reader "\x7b\"areas\":[9,1],\"phase\":\"retreat\"\x7d".toList =
      .ok (⟨[9, 1], .retreat⟩, []) := rfl
  have hrepeated : WrittenUnits.reader "\x7b\"areas\":[9,4,7,4,9]\x7d".toList =
      .ok (⟨[9, 4, 7, 4, 9], .movement⟩, []) := rfl
  obtain ⟨area, hleast, harea⟩ := ((hareas _).error_iff _).mp hrepeat
  obtain ⟨u, hu, hpadded⟩ := hback [12, -1, 5] 4 (by decide) (by decide) (by decide)
  obtain rfl : pair 5 12 .movement = u := Except.ok.inj (hslots.symm.trans hu)
  obtain rfl : 4 = area := by
    cases harea
    rfl
  exact ⟨⟨4, hleast, hrepeat⟩, hslots, hpadded, hthere _ 4 (by decide) (by decide),
    ((htexts _).1 _ _).mpr ⟨_, hwritten, rfl⟩,
    ((htexts _).2 _).mpr (Or.inr ⟨_, _, 4, hrepeated, hleast, rfl⟩)⟩

end UnitList

end OrderDecoding
