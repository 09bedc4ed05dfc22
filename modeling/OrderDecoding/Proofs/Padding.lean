/-
# `Proofs.Padding` — what is decoded can be written down

A list of orders is written for a fixed number of slots, one BLOCK of the
vocabulary's length for each.  What stands in a slot is the entry of the list
or, past its end, no order (`slot`), and that is all there is to it: the
writing is that of the slots, one block after the other
(`encodePadded_eq_mapM`).  So it fails with the first slot that cannot be
written, and else each block can be looked at alone (`encode_block`).

An order that decoding has chosen was read for a unit from an entry of the
vocabulary, and whatever is read there can be written
(`writable_of_orderAt`): a place that an entry names is on the map, and only
kinds that may name a second area are read with one.
-/
import OrderDecoding.Proofs.Encoding
import OrderDecoding.Proofs.Histories

namespace OrderDecoding

/-! ## Lists of lists of one length -/

section Uniform

variable {β : Type} {rows : List (List β)} {n : Nat}

theorem length_flatten_of_uniform (h : ∀ row ∈ rows, row.length = n) :
    rows.flatten.length = rows.length * n := by
  induction rows with
  | nil => simp
  | cons row rows ih =>
    obtain ⟨hrow, hrows⟩ := List.forall_mem_cons.mp h
    rw [List.flatten_cons, List.length_append, hrow, ih hrows, List.length_cons, Nat.succ_mul,
      Nat.add_comm]

theorem take_drop_flatten (h : ∀ row ∈ rows, row.length = n) {i : Nat} {row : List β}
    (hi : rows[i]? = some row) : (rows.flatten.drop (i * n)).take n = row := by
  induction rows generalizing i with
  | nil => cases hi
  | cons first rows ih =>
    obtain ⟨hfirst, hrows⟩ := List.forall_mem_cons.mp h
    rw [List.flatten_cons]
    cases i with
    | zero =>
      obtain rfl : first = row := Option.some.inj hi
      rw [Nat.zero_mul, List.drop_zero, List.take_left' hfirst]
    | succ i =>
      rw [Nat.succ_mul, Nat.add_comm, ← List.drop_drop, List.drop_left' hfirst]
      exact ih hrows hi

end Uniform

namespace Vocabulary

variable {v : Vocabulary} {orders : List (Option Order)} {m : Nat} {x : List Float32}

/-! ## Unit by unit -/

/-- The order for unit `i`: the entry of a list, and no order past its end. -/
def orderFor (orders : List (Option Order)) (i : Nat) : Option Order := orders[i]?.join

theorem orderFor_eq {i : Nat} {o : Option Order} (h : orders[i]? = some o) :
    orderFor orders i = o := by
  rw [orderFor, h, Option.join_some]

theorem orderFor_eq_none {i : Nat} (h : orders[i]? = none) : orderFor orders i = none := by
  rw [orderFor, h, Option.join_none]

theorem map_orderFor (orders : List (Option Order)) (m : Nat) :
    (List.range m).map (orderFor orders) =
      orders.take m ++ List.replicate (m - (orders.take m).length) none := by
  refine List.ext_getElem? fun i => ?_
  rw [List.getElem?_map, List.getElem?_append, List.getElem?_replicate, List.length_take,
    List.getElem?_take]
  rcases Nat.lt_or_ge i m with hm | hm
  · rw [List.getElem?_range hm, Option.map_some, if_pos hm]
    rcases Nat.lt_or_ge i orders.length with hi | hi
    · have hentry : orders[i]? = some orders[i] := List.getElem?_eq_getElem hi
      rw [if_pos (Nat.lt_min.mpr ⟨hm, hi⟩), orderFor_eq hentry, hentry]
    · rw [if_neg (by omega), if_pos (by omega), orderFor_eq_none (List.getElem?_eq_none hi)]
  · rw [if_neg (by omega), if_neg (by omega), List.getElem?_eq_none (by simpa using hm)]
    rfl

theorem length_indicator (entries : List Nat) : (v.indicator entries).length = v.size := by
  rw [indicator, List.length_map, List.length_range]

theorem encode_none : v.encode none = .ok (List.replicate v.size 0) := by
  simp [encode, indicator, List.map_const']

theorem length_encode {o : Option Order} (h : v.encode o = .ok x) : x.length = v.size := by
  cases o with
  | none =>
    cases h
    exact length_indicator []
  | some o =>
    obtain ⟨-, rfl⟩ := encode_some_eq_ok_iff.mp h
    exact length_indicator _

theorem mapM_encode_replicate (k : Nat) : (List.replicate k none).mapM v.encode =
    .ok (List.replicate k (List.replicate v.size 0)) := by
  induction k with
  | zero => rfl
  | succ k ih =>
    rw [List.replicate_succ, List.mapM_cons, encode_none, ih]
    rfl

/-- A padded list is written unit by unit. -/
theorem encodePadded_eq_mapM (v : Vocabulary) (orders : List (Option Order)) (m : Nat) :
    v.encodePadded orders m =
      ((List.range m).mapM fun i => v.encode (orderFor orders i)) >>= fun rows =>
        .ok rows.flatten := by
  have hunits : ((List.range m).mapM fun i => v.encode (orderFor orders i)) =
      ((List.range m).map (orderFor orders)).mapM v.encode := by
    rw [List.mapM_map]
    rfl
  rw [hunits, map_orderFor, List.mapM_append, encodePadded]
  simp only [bind_assoc]
  refine bind_congr_ok fun rows hrows => ?_
  have hlength : rows.length = (orders.take m).length :=
    (List.Forall₂.length_eq (forall₂_of_mapM hrows)).symm
  rw [mapM_encode_replicate, hlength]
  refine congrArg Except.ok ?_
  rw [List.flatten_append, List.flatten_replicate_replicate]

/-- What is written for unit `i`. -/
def block (v : Vocabulary) (x : List Float32) (i : Nat) : List Float32 :=
  (x.drop (i * v.size)).take v.size

/-- Each block is the writing of its own unit's order. -/
theorem encode_block (h : v.encodePadded orders m = .ok x) :
    x.length = m * v.size ∧ ∀ i < m, v.encode (orderFor orders i) = .ok (v.block x i) := by
  rw [encodePadded_eq_mapM] at h
  obtain ⟨rows, hrows, h⟩ := bind_eq_ok_iff.mp h
  cases h
  obtain ⟨hlength, hencode⟩ := forall₂_iff_getElem?.mp (forall₂_of_mapM hrows)
  rw [List.length_range] at hlength
  have huniform : ∀ row ∈ rows, row.length = v.size := by
    intro row hrow
    obtain ⟨i, -, hi⟩ := exists_of_mem_mapM hrows hrow
    exact length_encode hi
  refine ⟨by rw [length_flatten_of_uniform huniform, ← hlength], fun i hi => ?_⟩
  obtain ⟨row, hrow⟩ : ∃ row, rows[i]? = some row := ⟨_, List.getElem?_eq_getElem (hlength ▸ hi)⟩
  rw [block, take_drop_flatten huniform hrow]
  exact hencode i i row (List.getElem?_range hi) hrow

theorem encode_orderFor_eq_error_iff {i : Nat} {e : VocabError} :
    v.encode (orderFor orders i) = .error e ↔
      ∃ o, orders[i]? = some o ∧ v.encode o = .error e := by
  cases h : orders[i]? with
  | none => simp [orderFor_eq_none h, encode_none]
  | some o => simp [orderFor_eq h]

theorem exists_encode_orderFor_iff {i : Nat} : (∃ y, v.encode (orderFor orders i) = .ok y) ↔
    ∀ o, orders[i]? = some o → ∃ y, v.encode o = .ok y := by
  cases h : orders[i]? with
  | none => simp [orderFor_eq_none h, encode_none]
  | some o => simp [orderFor_eq h]

/-- Writing fails with the first order that cannot be written. -/
theorem encodePadded_eq_error_iff {e : VocabError} : v.encodePadded orders m = .error e ↔
    ∃ i < m, (∃ o, orders[i]? = some o ∧ v.encode o = .error e) ∧
      ∀ j < i, ∀ o, orders[j]? = some o → ∃ y, v.encode o = .ok y := by
  rw [encodePadded_eq_mapM, bind_eq_error_iff, mapM_range_eq_error_iff]
  simp only [encode_orderFor_eq_error_iff, exists_encode_orderFor_iff]
  exact or_iff_left fun ⟨_, _, h⟩ => nomatch h

theorem exists_encodePadded (h : ∀ i < m, ∃ y, v.encode (orderFor orders i) = .ok y) :
    ∃ x, v.encodePadded orders m = .ok x := by
  obtain ⟨rows, hrows⟩ := exists_mapM fun i hi => h i (List.mem_range.mp hi)
  exact ⟨_, (encodePadded_eq_mapM v orders m).trans (bind_eq_ok_iff.mpr ⟨rows, hrows, rfl⟩)⟩

/-! ## What is read can be written -/

theorem writable_readSlot {unit : Area} (phase : Phase) {slot : Slot} (hunit : unit < v.numAreas)
    (hslot : v.OnMap slot) : v.Writable (readSlot unit phase slot) := by
  cases slot with
  | kind k => exact ⟨hunit, nofun⟩
  | source target =>
    refine ⟨hunit, ?_⟩
    rintro _ ⟨⟩
    exact ⟨rfl, hslot⟩
  | destination area =>
    cases phase with
    | movement =>
      refine ⟨hunit, ?_⟩
      rintro _ ⟨⟩
      exact ⟨rfl, hslot⟩
    | retreat =>
      refine ⟨hunit, ?_⟩
      rintro _ ⟨⟩
      exact ⟨rfl, hslot⟩
    | build => exact ⟨hslot, nofun⟩

theorem writable_of_orderAt {index : Nat} {unit : Area} {phase : Phase} {o : Order}
    (h : v.orderAt index unit phase = .ok o) : v.Writable o := by
  obtain ⟨hunit, slot, hslot, rfl⟩ := orderAt_eq_ok_iff.mp h
  exact writable_readSlot phase hunit (slot?_eq_some_iff.mp hslot).2

end Vocabulary

/-! ## Candidates -/

variable {α : Type}

theorem Candidate.padded_eq_map (c : Candidate α) (m : Nat) :
    c.padded m = (List.range m).map (Vocabulary.orderFor (c.orders.map some)) := by
  rw [Vocabulary.map_orderFor, ← List.map_take]
  rfl

theorem Candidate.orderFor_padded (c : Candidate α) {m i : Nat} (hi : i < m) :
    Vocabulary.orderFor (c.padded m) i = c.orders[i]? := by
  have hentry : (c.padded m)[i]? = some (Vocabulary.orderFor (c.orders.map some) i) := by
    rw [c.padded_eq_map, List.getElem?_map, List.getElem?_range hi, Option.map_some]
  rw [Vocabulary.orderFor_eq hentry, Vocabulary.orderFor, List.getElem?_map]
  cases c.orders[i]? <;> rfl

variable [Score α]

theorem Decoded.writable {p : Position α} {c : Candidate α} (h : Decoded p c) :
    ∀ o ∈ c.orders, p.vocab.Writable o := by
  intro o ho
  obtain ⟨unit, -, index, -, hread⟩ := h.isHistory.exists_reads ho
  exact Vocabulary.writable_of_orderAt hread

/-- What decoding gives out can be written, and is read back unit by unit. -/
theorem Decoded.exists_encodePadded {p : Position α} {c : Candidate α} (h : Decoded p c)
    (m : Nat) : ∃ x, p.vocab.encodePadded (c.padded m) m = .ok x ∧
      x.length = m * p.vocab.size ∧
      ∀ i < m, p.vocab.decode (p.vocab.block x i) = .ok c.orders[i]? := by
  obtain ⟨x, hx⟩ : ∃ x, p.vocab.encodePadded (c.padded m) m = .ok x := by
    refine Vocabulary.exists_encodePadded fun i hi => ?_
    rw [c.orderFor_padded hi]
    cases ho : c.orders[i]? with
    | none => exact ⟨_, Vocabulary.encode_none⟩
    | some o =>
      have hwritable := h.writable o (List.mem_of_getElem? ho)
      exact ⟨_, Vocabulary.encode_some_eq_ok_iff.mpr ⟨hwritable, rfl⟩⟩
  obtain ⟨hlength, hblocks⟩ := Vocabulary.encode_block hx
  refine ⟨x, hx, hlength, fun i hi => ?_⟩
  rw [← c.orderFor_padded hi]
  exact Vocabulary.decode_of_encode (hblocks i hi)

/-- Whatever decoding gives out survives being written for a fixed number of
units: it can be written, and each block is read back as the order of its
unit, or as no order where the candidate has none.  Any list of orders is
written block by block, with zeros past its end, unless one of the orders for
these units cannot be written; then the first such order is what it fails
with. -/
theorem decoded_orders_survive_padding (p : Position α) :
    (∀ c, Decoded p c → ∀ m, ∃ x, p.vocab.encodePadded (c.padded m) m = .ok x ∧
      x.length = m * p.vocab.size ∧
      ∀ i < m, p.vocab.decode (p.vocab.block x i) = .ok c.orders[i]?) ∧
    ∀ (v : Vocabulary) (orders : List (Option Order)) (m : Nat),
      (∀ e, v.encodePadded orders m = .error e ↔
        ∃ i < m, (∃ o, orders[i]? = some o ∧ v.encode o = .error e) ∧
          ∀ j < i, ∀ o, orders[j]? = some o → ∃ y, v.encode o = .ok y) ∧
      ∀ x, v.encodePadded orders m = .ok x → x.length = m * v.size ∧
        ∀ i < m, (∀ o, orders[i]? = some o → v.encode o = .ok (v.block x i)) ∧
          (orders[i]? = none → v.block x i = List.replicate v.size 0) := by
  refine ⟨fun c h m => h.exists_encodePadded m, fun v orders m =>
    ⟨fun e => Vocabulary.encodePadded_eq_error_iff, fun x hx => ?_⟩⟩
  obtain ⟨hlength, hblocks⟩ := Vocabulary.encode_block hx
  refine ⟨hlength, fun i hi => ⟨fun o ho => ?_, fun hnone => ?_⟩⟩
  · rw [← Vocabulary.orderFor_eq ho]
    exact hblocks i hi
  · have hempty := hblocks i hi
    rw [Vocabulary.orderFor_eq_none hnone, Vocabulary.encode_none] at hempty
    exact (Except.ok.inj hempty).symm

/-- A move, no order, a hold that names a second area, and one off the
map. -/
def unevenOrders : List (Option Order) :=
  [some (.move 0 1), none, some ⟨.hold, 1, some 0⟩, some (.hold 5)]

/-- Two units are decoded, and written for three.  Of the orders that cannot
be written the hold comes first; without it and what follows there is nothing
wrong with the list. -/
theorem contested_survives_padding :
    (Decoded contested (contestedCandidate .greedy) ∧
      ∃ x, contested.vocab.encodePadded ((contestedCandidate .greedy).padded 3) 3 = .ok x ∧
        x.length = 3 * contested.vocab.size ∧
        ∀ i < 3, contested.vocab.decode (contested.vocab.block x i) =
          .ok (contestedCandidate .greedy).orders[i]?) ∧
    (Vocabulary.encodePadded ⟨2⟩ unevenOrders 4 = .error (.unexpectedDestination .hold) ∧
      ∃ i < 4, (∃ o, unevenOrders[i]? = some o ∧
          Vocabulary.encode ⟨2⟩ o = .error (.unexpectedDestination .hold)) ∧
        ∀ j < i, ∀ o, unevenOrders[j]? = some o → ∃ y, Vocabulary.encode ⟨2⟩ o = .ok y) ∧
    ∃ x, Vocabulary.encodePadded ⟨2⟩ (unevenOrders.take 2) 3 = .ok x ∧ x.length = 33 ∧
      Vocabulary.encode ⟨2⟩ (some (.move 0 1)) = .ok (Vocabulary.block ⟨2⟩ x 0) ∧
      Vocabulary.block ⟨2⟩ x 2 = List.replicate 11 0 := by
  have hdecoded : Decoded contested (contestedCandidate .greedy) := by
    have hgreedy : Greedy.decode contested 1 true = .ok (contestedCandidate .greedy) := by
      decide +kernel
    exact .searched (.greedy hgreedy)
  have herror : Vocabulary.encodePadded ⟨2⟩ unevenOrders 4 =
      .error (.unexpectedDestination .hold) := by decide +kernel
  obtain ⟨x, hx⟩ : ∃ x, Vocabulary.encodePadded ⟨2⟩ (unevenOrders.take 2) 3 = .ok x := ⟨_, rfl⟩
  obtain ⟨hsurvives, hlists⟩ := decoded_orders_survive_padding contested
  obtain ⟨hfails, -⟩ := hlists ⟨2⟩ unevenOrders 4
  obtain ⟨-, hwritten⟩ := hlists ⟨2⟩ (unevenOrders.take 2) 3
  obtain ⟨hlength, hblocks⟩ := hwritten x hx
  exact ⟨⟨hdecoded, hsurvives _ hdecoded 3⟩, ⟨herror, (hfails _).mp herror⟩, x, hx, hlength,
    (hblocks 0 (by decide)).1 _ rfl, (hblocks 2 (by decide)).2 rfl⟩

end OrderDecoding
