/-
# `Proofs.Encoding` — a vector is read as an order if it is its writing

Reading looks only at which entries of a vector are positive, and writing
sets a fixed list of entries, the MARKS of an order.  So the two are compared
through the set of positive entries (`Hot`): a block is read as its only
positive entry, or as none (`onlyHot_eq_ok_iff`), a vector as the order whose
marks are its positive entries (`decode_eq_some_iff`).

Marks are in the vocabulary exactly if the order can be written
(`Writable`), and then no two of them fall into one block.  That is why
what is read can be written, and is written as the vector of ones where the
one read was positive (`decode_eq_some_iff_encode`).
-/
import OrderDecoding.Proofs.Claims
import OrderDecoding.Vocabulary.Vector

namespace OrderDecoding

namespace Vocabulary

/-! ## Positive entries -/

/-- Entry `i` is positive. -/
def Hot (entries : List Float32) (i : Nat) : Prop := ∃ x, entries[i]? = some x ∧ 0 < x

/-- Ones where entries are positive, and zeros elsewhere. -/
def positives (entries : List Float32) : List Float32 :=
  entries.map fun x => if 0 < x then 1 else 0

theorem Hot.lt {entries : List Float32} {i : Nat} (h : Hot entries i) : i < entries.length := by
  obtain ⟨x, hx, -⟩ := h
  exact (List.getElem?_eq_some_iff.mp hx).1

theorem not_hot_iff {entries : List Float32} :
    (∀ i, ¬ Hot entries i) ↔ ∀ x ∈ entries, ¬ 0 < x := by
  constructor
  · intro h x hx hpos
    obtain ⟨i, hi⟩ := List.mem_iff_getElem?.mp hx
    exact h i ⟨x, hi, hpos⟩
  · rintro h i ⟨x, hi, hpos⟩
    exact h x (List.mem_of_getElem? hi) hpos

theorem hot_take {entries : List Float32} {n i : Nat} :
    Hot (entries.take n) i ↔ i < n ∧ Hot entries i := by
  simp only [Hot, List.getElem?_take]
  split
  · next h => simp [h]
  · next h => simp [h]

theorem hot_drop {entries : List Float32} {n i : Nat} :
    Hot (entries.drop n) i ↔ Hot entries (n + i) := by
  simp only [Hot, List.getElem?_drop]

/-- The positive entries of a block, in ascending order. -/
def hotPlaces (entries : List Float32) : List Nat :=
  (entries.zipIdx.filter fun e => 0 < e.1).map (·.2)

theorem mem_hotPlaces {entries : List Float32} {i : Nat} :
    i ∈ hotPlaces entries ↔ Hot entries i := by
  simp [hotPlaces, Hot, List.mem_zipIdx_iff_getElem?]

theorem nodup_hotPlaces (entries : List Float32) : (hotPlaces entries).Nodup := by
  have hsublist : (hotPlaces entries).Sublist (entries.zipIdx.map (·.2)) :=
    List.filter_sublist.map _
  rw [List.zipIdx_map_snd] at hsublist
  exact hsublist.nodup List.nodup_range'

/-- A block is read as the only entry of it that is positive, or as none. -/
theorem onlyHot_eq_ok_iff {block : String} {entries : List Float32} {o : Option Nat} :
    onlyHot block entries = .ok o ↔ ∀ i, Hot entries i ↔ o = some i := by
  have hplaces := nodup_hotPlaces entries
  simp only [← mem_hotPlaces]
  unfold onlyHot
  unfold hotPlaces at *
  generalize entries.zipIdx.filter (fun e => 0 < e.1) = hots at *
  match hots with
  | [] =>
    constructor
    · intro h
      cases h
      simp
    · intro h
      cases o with
      | none => rfl
      | some i => exact absurd ((h i).mpr rfl) List.not_mem_nil
  | [e] =>
    constructor
    · intro h
      cases h
      simp [eq_comm]
    · intro h
      rw [(h e.2).mp (List.mem_singleton_self _)]
  | e :: e' :: rest =>
    -- two of them, at different places
    refine ⟨nofun, fun h => ?_⟩
    have hfirst := (h e.2).mp List.mem_cons_self
    have hsecond := (h e'.2).mp (List.mem_cons_of_mem _ List.mem_cons_self)
    have hsame : e.2 = e'.2 := Option.some.inj (hfirst.symm.trans hsecond)
    rw [List.map_cons, List.map_cons, hsame] at hplaces
    exact absurd List.mem_cons_self (List.nodup_cons.mp hplaces).1

/-! ## Marks -/

/-- The entries that are set for an order. -/
def marks (v : Vocabulary) (o : Order) : List Nat :=
  o.kind.index :: (v.sourceOffset + o.source) :: (o.destination.map v.destinationIndex).toList

/-- An order of this map whose kind may name a destination if it does. -/
structure Writable (v : Vocabulary) (o : Order) : Prop where
  source : o.source < v.numAreas
  destination : ∀ area, o.destination = some area →
    o.kind.allowsDestination = true ∧ area < v.numAreas

theorem hotEntries_eq_ok_iff {v : Vocabulary} {o : Order} {entries : List Nat} :
    v.hotEntries o = .ok entries ↔ v.Writable o ∧ entries = v.marks o := by
  obtain ⟨kind, source, destination⟩ := o
  unfold hotEntries marks
  constructor
  · intro h
    obtain ⟨⟨⟩, hsource, h⟩ := bind_eq_ok_iff.mp h
    have hsource := checkArea_eq_ok_iff.mp hsource
    cases destination with
    | none =>
      cases h
      exact ⟨⟨hsource, nofun⟩, rfl⟩
    | some area =>
      dsimp only at h
      split at h
      · next hallows =>
        obtain ⟨⟨⟩, harea, h⟩ := bind_eq_ok_iff.mp h
        cases h
        refine ⟨⟨hsource, ?_⟩, rfl⟩
        rintro _ ⟨⟩
        exact ⟨hallows, checkArea_eq_ok_iff.mp harea⟩
      · cases h
  · rintro ⟨⟨hsource, hdestination⟩, rfl⟩
    refine bind_eq_ok_iff.mpr ⟨(), checkArea_eq_ok_iff.mpr hsource, ?_⟩
    cases destination with
    | none => rfl
    | some area =>
      obtain ⟨hallows, harea⟩ := hdestination area rfl
      dsimp only
      rw [if_pos hallows]
      exact bind_eq_ok_iff.mpr ⟨(), checkArea_eq_ok_iff.mpr harea, rfl⟩

theorem encode_some_eq_ok_iff {v : Vocabulary} {o : Order} {x : List Float32} :
    v.encode (some o) = .ok x ↔ v.Writable o ∧ x = v.indicator (v.marks o) := by
  unfold encode
  rw [bind_eq_ok_iff]
  simp only [hotEntries_eq_ok_iff, Except.ok.injEq]
  constructor
  · rintro ⟨_, ⟨hwritable, rfl⟩, rfl⟩
    exact ⟨hwritable, rfl⟩
  · rintro ⟨hwritable, rfl⟩
    exact ⟨_, ⟨hwritable, rfl⟩, rfl⟩

theorem hot_indicator {v : Vocabulary} {entries : List Nat} {i : Nat} :
    Hot (v.indicator entries) i ↔ i < v.size ∧ i ∈ entries := by
  have hone : (0 : Float32) < 1 := by decide
  have hzero : ¬ (0 : Float32) < 0 := by decide
  unfold Hot indicator
  rw [List.getElem?_map]
  by_cases hi : i < v.size
  · rw [List.getElem?_range hi]
    by_cases hmem : i ∈ entries <;> simp [hi, hmem, hone, hzero]
  · rw [List.getElem?_eq_none (by simpa using hi)]
    simp [hi]

/-- The vector of ones at some entries is that of the positive entries of a
vector if these are the same. -/
theorem positives_eq_indicator_iff {v : Vocabulary} {x : List Float32} {entries : List Nat}
    (hentries : ∀ i ∈ entries, i < v.size) :
    positives x = v.indicator entries ↔ x.length = v.size ∧ ∀ i, Hot x i ↔ i ∈ entries := by
  have hone : (0 : Float32) < 1 := by decide
  have hzero : ¬ (0 : Float32) < 0 := by decide
  constructor
  · intro h
    have hlength : x.length = v.size := by
      simpa [positives, indicator] using congrArg List.length h
    refine ⟨hlength, fun i => ?_⟩
    have hhot : Hot (positives x) i ↔ Hot x i := by
      unfold Hot positives
      rw [List.getElem?_map]
      cases x[i]? with
      | none => simp
      | some y => by_cases hy : 0 < y <;> simp [hy, hone, hzero]
    rw [← hhot, h, hot_indicator]
    exact ⟨fun h => h.2, fun h => ⟨hentries i h, h⟩⟩
  · rintro ⟨hlength, hhot⟩
    refine List.ext_getElem (by simp [positives, indicator, hlength]) fun i hi hi' => ?_
    have hlt : i < x.length := by simpa [positives] using hi
    have hmem : 0 < x[i] ↔ i ∈ entries := by
      rw [← hhot i]
      unfold Hot
      rw [List.getElem?_eq_getElem hlt]
      simp
    simp only [positives, indicator, List.getElem_map, List.getElem_range, hmem]

/-! ## Marks by block -/

/-- An entry is in one of the three blocks. -/
theorem forall_blocks (v : Vocabulary) {P : Nat → Prop} :
    (∀ i, P i) ↔ (∀ i < numKinds, P i) ∧ (∀ i < v.numAreas, P (v.sourceOffset + i)) ∧
      ∀ i, P (v.destinationOffset + i) := by
  refine ⟨fun h => ⟨fun i _ => h i, fun i _ => h _, fun i => h _⟩, ?_⟩
  rintro ⟨hkind, hsource, hdestination⟩ i
  have hoffset : v.destinationOffset = v.sourceOffset + v.numAreas := rfl
  rcases Nat.lt_or_ge i v.sourceOffset with hlt | hge
  · exact hkind i hlt
  obtain ⟨j, rfl⟩ := Nat.exists_eq_add_of_le hge
  rcases Nat.lt_or_ge j v.numAreas with hlt | hge
  · exact hsource j hlt
  obtain ⟨k, rfl⟩ := Nat.exists_eq_add_of_le hge
  rw [← Nat.add_assoc, ← hoffset]
  exact hdestination k

theorem mem_marks {v : Vocabulary} {o : Order} {i : Nat} : i ∈ v.marks o ↔
    i = o.kind.index ∨ i = v.sourceOffset + o.source ∨
      ∃ area, o.destination = some area ∧ i = v.destinationOffset + area := by
  cases h : o.destination <;> simp [marks, h, destinationIndex]

variable {v : Vocabulary} {o : Order}

theorem kind_mem_marks {i : Nat} (hi : i < numKinds) :
    i ∈ v.marks o ↔ some o.kind.index = some i := by
  have hsource : v.sourceOffset = numKinds := rfl
  have hdestination : v.destinationOffset = numKinds + v.numAreas := rfl
  rw [mem_marks, Option.some.injEq]
  constructor
  · rintro (rfl | rfl | ⟨area, -, rfl⟩)
    · rfl
    · omega
    · omega
  · rintro rfl
    exact Or.inl rfl

theorem source_mem_marks {i : Nat} (hi : i < v.numAreas) :
    v.sourceOffset + i ∈ v.marks o ↔ some o.source = some i := by
  have hkind := o.kind.index_lt
  have hsource : v.sourceOffset = numKinds := rfl
  have hdestination : v.destinationOffset = numKinds + v.numAreas := rfl
  rw [mem_marks, Option.some.injEq]
  constructor
  · rintro (h | h | ⟨area, -, h⟩)
    · omega
    · exact (Nat.add_left_cancel h).symm
    · omega
  · rintro rfl
    exact Or.inr (Or.inl rfl)

theorem destination_mem_marks (ho : v.Writable o) {i : Nat} :
    v.destinationOffset + i ∈ v.marks o ↔ o.destination = some i := by
  have hkind := o.kind.index_lt
  have hsource : v.sourceOffset = numKinds := rfl
  have hdestination : v.destinationOffset = numKinds + v.numAreas := rfl
  have hlt := Nat.succ_le_of_lt ho.source
  rw [mem_marks]
  constructor
  · rintro (h | h | ⟨area, harea, h⟩)
    · omega
    · omega
    · rw [harea, Nat.add_left_cancel h]
  · intro h
    exact Or.inr (Or.inr ⟨i, h, rfl⟩)

theorem lt_size_of_mem_marks (ho : v.Writable o) {i : Nat} (hi : i ∈ v.marks o) : i < v.size := by
  have hkind := o.kind.index_lt
  have hsize : v.size = numKinds + 2 * v.numAreas := rfl
  rcases mem_marks.mp hi with rfl | rfl | ⟨area, harea, rfl⟩
  · omega
  · have hoffset : v.sourceOffset = numKinds := rfl
    have hlt := Nat.succ_le_of_lt ho.source
    omega
  · have hoffset : v.destinationOffset = numKinds + v.numAreas := rfl
    have hlt := Nat.succ_le_of_lt (ho.destination area harea).2
    omega

/-! ## Reading -/

theorem ofEntries_eq_some_iff {kind source destination : Option Nat} :
    ofEntries kind source destination = .ok (some o) ↔
      kind.bind OrderKind.ofIndex? = some o.kind ∧ source = some o.source ∧
        destination = o.destination ∧
          ∀ area, o.destination = some area → o.kind.allowsDestination = true := by
  unfold ofEntries
  cases kind.bind OrderKind.ofIndex? with
  | none => cases source <;> cases destination <;> simp
  | some kind =>
    cases source with
    | none => simp
    | some source =>
      constructor
      · intro h
        dsimp only at h
        split at h
        · next hallows =>
          cases h
          refine ⟨rfl, rfl, rfl, ?_⟩
          rintro area rfl
          exact hallows
        · cases h
      · obtain ⟨k, s, d⟩ := o
        rintro ⟨⟨⟩, ⟨⟩, rfl, hallows⟩
        refine if_pos ?_
        cases destination with
        | none => rfl
        | some area => exact hallows area rfl

theorem ofEntries_eq_none_iff {kind source destination : Option Nat} :
    ofEntries kind source destination = .ok none ↔
      kind.bind OrderKind.ofIndex? = none ∧ source = none ∧ destination = none := by
  unfold ofEntries
  cases kind.bind OrderKind.ofIndex? with
  | none => cases source <;> cases destination <;> simp
  | some kind =>
    cases source with
    | none => simp
    | some source =>
      dsimp only
      split <;> simp

/-- A place in a block, or none, that is where `Q` holds. -/
theorem forall_lt_and_iff {n : Nat} {Q : Nat → Prop} {o : Option Nat} :
    (∀ i, i < n ∧ Q i ↔ o = some i) ↔
      (∀ i < n, Q i ↔ o = some i) ∧ ∀ i, o = some i → i < n := by
  constructor
  · intro h
    exact ⟨fun i hi => by rw [← h i, and_iff_right hi], fun i hi => ((h i).mpr hi).1⟩
  · rintro ⟨h, hlt⟩ i
    constructor
    · rintro ⟨hi, hQ⟩
      exact (h i hi).mp hQ
    · intro ho
      exact ⟨hlt i ho, (h i (hlt i ho)).mpr ho⟩

/-- A vector of the right length is read block by block. -/
theorem decode_eq_ok_iff {x : List Float32} {r : Option Order} :
    v.decode x = .ok r ↔ x.length = v.size ∧ ∃ kind source destination,
      ((∀ i < numKinds, Hot x i ↔ kind = some i) ∧ ∀ i, kind = some i → i < numKinds) ∧
      ((∀ i < v.numAreas, Hot x (v.sourceOffset + i) ↔ source = some i) ∧
        ∀ i, source = some i → i < v.numAreas) ∧
      (∀ i, Hot x (v.destinationOffset + i) ↔ destination = some i) ∧
      ofEntries kind source destination = .ok r := by
  unfold decode
  split
  · next hlength => exact ⟨nofun, fun h => absurd h.1 hlength⟩
  · next hlength =>
    rw [ne_eq, not_not] at hlength
    simp only [bind_eq_ok_iff, onlyHot_eq_ok_iff, hot_take, hot_drop, forall_lt_and_iff, hlength,
      true_and, exists_and_left]

/-- A vector is read as an order if that can be written and its marks are
the positive entries. -/
theorem decode_eq_some_iff {x : List Float32} : v.decode x = .ok (some o) ↔
    v.Writable o ∧ x.length = v.size ∧ ∀ i, Hot x i ↔ i ∈ v.marks o := by
  rw [decode_eq_ok_iff]
  constructor
  · rintro ⟨hlength, kind, source, destination, ⟨hkind, hkindlt⟩, ⟨hsource, hsourcelt⟩,
      hdestination, hentries⟩
    obtain ⟨hk, rfl, rfl, hallows⟩ := ofEntries_eq_some_iff.mp hentries
    obtain ⟨i, rfl, hi⟩ := Option.bind_eq_some_iff.mp hk
    obtain rfl := OrderKind.ofIndex?_eq_some_iff.mp hi
    have hwritable : v.Writable o := by
      refine ⟨hsourcelt _ rfl, fun area harea => ⟨hallows area harea, ?_⟩⟩
      have hlt := ((hdestination area).mpr harea).lt
      have hsize : v.size = v.destinationOffset + v.numAreas := by
        rw [size_eq, destinationOffset_eq]
        omega
      rw [hlength, hsize] at hlt
      exact Nat.lt_of_add_lt_add_left hlt
    refine ⟨hwritable, hlength, v.forall_blocks.mpr ⟨fun i hi => ?_, fun i hi => ?_, fun i => ?_⟩⟩
    · rw [hkind i hi, kind_mem_marks hi]
    · rw [hsource i hi, source_mem_marks hi]
    · rw [hdestination i, destination_mem_marks hwritable]
  · rintro ⟨hwritable, hlength, hhot⟩
    obtain ⟨hkind, hsource, hdestination⟩ := v.forall_blocks.mp hhot
    refine ⟨hlength, some o.kind.index, some o.source, o.destination, ⟨fun i hi => ?_, ?_⟩,
      ⟨fun i hi => ?_, ?_⟩, fun i => ?_, ofEntries_eq_some_iff.mpr ⟨?_, rfl, rfl, ?_⟩⟩
    · rw [hkind i hi, kind_mem_marks hi]
    · rintro _ ⟨⟩
      exact o.kind.index_lt
    · rw [hsource i hi, source_mem_marks hi]
    · rintro _ ⟨⟩
      exact hwritable.source
    · rw [hdestination i, destination_mem_marks hwritable]
    · exact OrderKind.ofIndex?_index o.kind
    · exact fun area harea => (hwritable.destination area harea).1

/-- A vector without a positive entry is read as no order. -/
theorem decode_eq_none_iff {x : List Float32} :
    v.decode x = .ok none ↔ x.length = v.size ∧ ∀ e ∈ x, ¬ 0 < e := by
  rw [decode_eq_ok_iff, ← not_hot_iff, v.forall_blocks]
  refine and_congr_right fun hlength => ?_
  constructor
  · rintro ⟨kind, source, destination, ⟨hkind, hkindlt⟩, ⟨hsource, -⟩, hdestination, hentries⟩
    obtain ⟨hk, rfl, rfl⟩ := ofEntries_eq_none_iff.mp hentries
    -- every entry of the first block is a kind
    obtain rfl : kind = none := by
      cases kind with
      | none => rfl
      | some i =>
        obtain ⟨k, hi⟩ := OrderKind.exists_ofIndex? (hkindlt i rfl)
        rw [Option.bind_some, hi] at hk
        cases hk
    exact ⟨fun i hi => by simp [hkind i hi], fun i hi => by simp [hsource i hi],
      fun i => by simp [hdestination i]⟩
  · rintro ⟨hkind, hsource, hdestination⟩
    exact ⟨none, none, none, ⟨fun i hi => by simp [hkind i hi], nofun⟩,
      ⟨fun i hi => by simp [hsource i hi], nofun⟩, fun i => by simp [hdestination i], rfl⟩

/-- A vector is read as an order if the order is written like it, with ones
for what is positive. -/
theorem decode_eq_some_iff_encode {x : List Float32} :
    v.decode x = .ok (some o) ↔ v.encode (some o) = .ok (positives x) := by
  rw [decode_eq_some_iff, encode_some_eq_ok_iff]
  refine and_congr_right fun hwritable => ?_
  exact (positives_eq_indicator_iff fun _ => lt_size_of_mem_marks hwritable).symm

/-! ## Writing and reading -/

/-- What is written is read as what it was written for. -/
theorem decode_of_encode {o : Option Order} {x : List Float32} (h : v.encode o = .ok x) :
    v.decode x = .ok o := by
  cases o with
  | none =>
    cases h
    refine decode_eq_none_iff.mpr ⟨by simp [indicator], not_hot_iff.mp fun i hi => ?_⟩
    exact List.not_mem_nil (hot_indicator.mp hi).2
  | some o =>
    obtain ⟨hwritable, rfl⟩ := encode_some_eq_ok_iff.mp h
    refine decode_eq_some_iff.mpr ⟨hwritable, by simp [indicator], fun i => ?_⟩
    rw [hot_indicator, and_iff_right_iff_imp]
    exact lt_size_of_mem_marks hwritable

/-- Orders that can be written are those of the map that name a destination
only if they may. -/
theorem exists_encode_iff : (∃ x, v.encode (some o) = .ok x) ↔
    o.source < v.numAreas ∧ (o.destination = none ∨ ∃ area, o.destination = some area ∧
      o.kind ∈ [.move, .support, .convoy, .retreat] ∧ area < v.numAreas) := by
  have hallows (k : OrderKind) :
      k.allowsDestination = true ↔ k ∈ [OrderKind.move, .support, .convoy, .retreat] := by
    cases k <;> decide
  simp only [encode_some_eq_ok_iff, exists_and_left, exists_eq, and_true, ← hallows]
  constructor
  · rintro ⟨hsource, hdestination⟩
    refine ⟨hsource, ?_⟩
    cases harea : o.destination with
    | none => exact Or.inl rfl
    | some area => exact Or.inr ⟨area, rfl, hdestination area harea⟩
  · rintro ⟨hsource, hnone | ⟨area, harea, hallows, hlt⟩⟩
    · exact ⟨hsource, fun area harea => by rw [hnone] at harea; cases harea⟩
    · refine ⟨hsource, fun area' harea' => ?_⟩
      obtain rfl : area = area' := Option.some.inj (harea.symm.trans harea')
      exact ⟨hallows, hlt⟩

/-- Writing and reading are inverse to each other: orders are written exactly
if they keep to the grammar, and read back; a vector is read as the order
that is written like it, as no order if nothing in it is positive, and is
refused otherwise. -/
theorem encode_decode_inverse (v : Vocabulary) :
    (∀ o : Order, (∃ x, v.encode (some o) = .ok x) ↔
      o.source < v.numAreas ∧ (o.destination = none ∨ ∃ area, o.destination = some area ∧
        o.kind ∈ [.move, .support, .convoy, .retreat] ∧ area < v.numAreas)) ∧
    (∃ x, v.encode none = .ok x) ∧
    (∀ (o : Option Order) (x : List Float32), v.encode o = .ok x → v.decode x = .ok o) ∧
    (∀ (x : List Float32) (o : Order), v.decode x = .ok (some o) →
      v.encode (some o) = .ok (positives x)) ∧
    (∀ x : List Float32, v.decode x = .ok none ↔ x.length = v.size ∧ ∀ e ∈ x, ¬ 0 < e) ∧
    (∀ x : List Float32, (∃ e, v.decode x = .error e) ↔
      ¬ (x.length = v.size ∧ ∀ e ∈ x, ¬ 0 < e) ∧
        ¬ ∃ o, v.encode (some o) = .ok (positives x)) := by
  refine ⟨fun o => exists_encode_iff, ⟨_, rfl⟩, fun o x => decode_of_encode,
    fun x o => decode_eq_some_iff_encode.mp, fun x => decode_eq_none_iff, fun x => ?_⟩
  rw [← decode_eq_none_iff]
  simp only [← decode_eq_some_iff_encode]
  cases v.decode x with
  | error e => simp
  | ok o => cases o <;> simp

/-- A vector for the support of area 2 by the unit in area 0, on a map of
three areas. -/
def unevenSupport : List Float32 := [0, -1, 0.5, 0, 0, 0, -2, 3, 0, 0, 0, -0.5, 1]

/-- It is read although it is not written like this; with the kind of a hold
it is refused. -/
theorem unevenSupport_read :
    decode ⟨3⟩ unevenSupport = .ok (some (.support 0 2)) ∧
    encode ⟨3⟩ (some (.support 0 2)) = .ok (positives unevenSupport) ∧
    decode ⟨3⟩ (positives unevenSupport) = .ok (some (.support 0 2)) ∧
    ¬ ∃ o, encode ⟨3⟩ (some o) = .ok (positives (unevenSupport.set 0 1 |>.set 2 0)) := by
  obtain ⟨-, -, hread, hwritten, -, hrefused⟩ := encode_decode_inverse ⟨3⟩
  have hdecode : decode ⟨3⟩ unevenSupport = .ok (some (.support 0 2)) := by decide +kernel
  have hencode := hwritten _ _ hdecode
  have herror : decode ⟨3⟩ (unevenSupport.set 0 1 |>.set 2 0)
      = .error (.unexpectedDestination .hold) := by decide +kernel
  exact ⟨hdecode, hencode, hread _ _ hencode, ((hrefused _).mp ⟨_, herror⟩).2⟩

end Vocabulary

end OrderDecoding
