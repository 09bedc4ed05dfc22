/-
# `Proofs.Writing` — what is written is read back

Writing leaves out the destination of an order that has none; reading takes any
object for the same record.  So there is more to a text being read as an order
than that it was written for it, and reading is shown right for all objects that
SAY an order: its kind, its source, and its destination unless it has none
(`Order.SaidBy`).  A destination that there is not may be missing or `null`.
What is written is one of those objects.

A unit list is read in two stages.  Its areas are read in the order in which
they stand, and put in order then.  A list that is written is in order already,
so the second stage gives it back (`UnitList.toUnitList_eq_ok_iff`); and whatever
the text, it cannot give anything that is not ascending.
-/
import Mathlib
import OrderDecoding.Format.Order
import OrderDecoding.Proofs.Canonical
import OrderDecoding.Proofs.Records

namespace OrderDecoding

open Json

/-! ## Names -/

namespace OrderKind

theorem plain_name (kind : OrderKind) : ∀ c ∈ kind.name.toList, Plain c := by
  cases kind <;> simp [name, Plain]

theorem ofName?_name (kind : OrderKind) : ofName? kind.name = some kind := by
  cases kind <;> rfl

theorem reads (kind : OrderKind) : Reads OrderKind.reader (quoted kind.name).toList kind :=
  reads_quoted kind.plain_name kind.ofName?_name

end OrderKind

namespace Phase

theorem plain_name (phase : Phase) : ∀ c ∈ phase.name.toList, Plain c := by
  cases phase <;> simp [name, Plain]

theorem ofName?_name (phase : Phase) : ofName? phase.name = some phase := by
  cases phase <;> rfl

theorem reads (phase : Phase) : Reads Phase.reader (quoted phase.name).toList phase :=
  reads_quoted phase.plain_name phase.ofName?_name

end Phase

/-! ## Orders -/

namespace Order

variable {o : Order}

/-- The numbers of an order are words. -/
def InWords (o : Order) : Prop := o.source < Word.bound ∧ ∀ area ∈ o.destination, area < Word.bound

/-- The names of the fields of an order. -/
def fieldNames : List String := ["kind", "source", "destination"]

/-- A member says the field of a name.  A destination that there is not is
`null`. -/
inductive SaysField (o : Order) : String → Member → Prop
  | kind {k : List Char} : StandsFor k o.kind.name.toList →
      SaysField o "kind" ⟨"kind", '"' :: (k ++ ['"'])⟩
  | source : SaysField o "source" ⟨"source", (toString o.source).toList⟩
  | destination {area : Area} : o.destination = some area →
      SaysField o "destination" ⟨"destination", (toString area).toList⟩
  | noDestination : o.destination = none →
      SaysField o "destination" ⟨"destination", ['n', 'u', 'l', 'l']⟩

/-- A text is an object that says an order, possibly among members of other
names.  Only a destination that there is not may go unsaid. -/
def SaidBy (o : Order) (text : String) : Prop :=
  ∃ names ms, HasMembers ms text ∧ Says o.SaysField fieldNames names ms ∧ names.Nodup ∧
    "kind" ∈ names ∧ "source" ∈ names ∧ ("destination" ∈ names ∨ o.destination = none)

/-- Takes the field of a name over into a draft. -/
def copyField (o : Order) (name : String) (draft : Order) : Order :=
  { kind := if name = "kind" then o.kind else draft.kind
    source := if name = "source" then o.source else draft.source
    destination := if name = "destination" then o.destination else draft.destination }

theorem mem_or_copied {β : Type} {field name : String} {names : List String} {x y : β}
    (h : field ∈ name :: names ∨ y = x) : field ∈ names ∨ (if name = field then x else y) = x := by
  split
  · exact Or.inr rfl
  · next hne =>
    exact h.imp_left fun hmem => (List.mem_cons.mp hmem).resolve_left (Ne.symm hne)

/-- A draft that has the fields that are not taken over becomes the order. -/
theorem foldl_copyField {names : List String} {draft : Order}
    (hkind : "kind" ∈ names ∨ draft.kind = o.kind)
    (hsource : "source" ∈ names ∨ draft.source = o.source)
    (hdestination : "destination" ∈ names ∨ draft.destination = o.destination) :
    names.foldl (fun draft name => o.copyField name draft) draft = o := by
  induction names generalizing draft with
  | nil =>
    cases o
    cases draft
    simp_all
  | cons name names ih =>
    exact ih (mem_or_copied hkind) (mem_or_copied hsource) (mem_or_copied hdestination)

theorem reads_of_saying {names : List String} {ms : List Member} {text : List Char}
    (hwords : o.InWords) (hobject : IsObject ms text) (hsaid : Says o.SaysField fieldNames names ms)
    (honce : names.Nodup) (hkind : "kind" ∈ names) (hsource : "source" ∈ names)
    (hdestination : "destination" ∈ names ∨ o.destination = none) :
    Reads Order.reader text o := by
  obtain ⟨hword, hwords⟩ := hwords
  have hcopy : names.foldl (fun draft name => o.copyField name draft)
      { kind := .hold, source := 0 } = o :=
    foldl_copyField (Or.inl hkind) (Or.inl hsource) (hdestination.imp_right Eq.symm)
  rw [← hcopy]
  refine reads_record id hobject hsaid (fun name _ m hm => ?_) (by simpa using honce)
    (by simpa [RecordField.of] using ⟨hkind, hsource⟩)
  cases hm with
  | kind hk => exact ⟨rfl, _, rfl, (reads_oneOf hk o.kind.ofName?_name).of⟩
  | source => exact ⟨rfl, _, rfl, (reads_natural hword).of⟩
  | @destination area harea =>
    have hread : Reads (optional natural) (toString area).toList o.destination := by
      obtain ⟨c, tail, htext, hc⟩ := exists_toString area
      have hnatural := reads_natural (hwords area harea)
      rw [htext] at hnatural ⊢
      rw [harea]
      exact hnatural.optional (isBlank_of_isDigit hc) (ne_of_isDigit hc rfl)
    exact ⟨rfl, _, rfl, hread.of⟩
  | noDestination hnone =>
    have hread : Reads (optional natural) ['n', 'u', 'l', 'l'] o.destination := hnone ▸ reads_null
    exact ⟨rfl, _, rfl, hread.of⟩

theorem readText_of_saidBy {text : String} (hwords : o.InWords) (h : o.SaidBy text) :
    readText Order.reader text = .ok o := by
  obtain ⟨names, ms, ⟨b, t, b', hb, hobject, hb', htext⟩, hsaid, honce, hkind, hsource,
    hdestination⟩ := h
  exact (reads_of_saying hwords hobject hsaid honce hkind hsource hdestination).readText_eq
    hb hb' htext

/-! What is written. -/

/-- The names of the members that are written. -/
def writtenNames (o : Order) : List String :=
  ["kind", "source"] ++ (o.destination.map fun _ => "destination").toList

/-- The members that are written. -/
def writtenMembers (o : Order) : List Member :=
  [⟨"kind", (quoted o.kind.name).toList⟩, ⟨"source", (toString o.source).toList⟩]
    ++ (o.destination.map fun area => ⟨"destination", (toString area).toList⟩).toList

theorem forall₂_written (o : Order) :
    List.Forall₂ SpellsMember o.writtenMembers
      (([member "kind" (quoted o.kind.name), member "source" (toString o.source)]
        ++ (o.destination.map fun area => member "destination" (toString area)).toList).map
        String.toList) := by
  rw [List.map_append, writtenMembers]
  refine List.rel_append (.cons ?_ (.cons ?_ .nil)) ?_
  · exact spellsMember_member (by simp [Plain])
  · exact spellsMember_member (by simp [Plain])
  · cases o.destination with
    | none => exact .nil
    | some area => exact .cons (spellsMember_member (by simp [Plain])) .nil

theorem names_writtenMembers (o : Order) : o.writtenMembers.map (·.name) = o.writtenNames := by
  unfold writtenMembers writtenNames
  cases o.destination <;> rfl

theorem says_written (o : Order) : Says o.SaysField fieldNames o.writtenNames o.writtenMembers := by
  unfold writtenMembers writtenNames
  rw [toList_quoted]
  refine .field (.kind (standsFor_self o.kind.plain_name)) (.field .source ?_)
  cases h : o.destination with
  | none => exact .nil
  | some area => exact .field (.destination h) .nil

theorem nodup_writtenNames (o : Order) : o.writtenNames.Nodup := by
  unfold writtenNames
  cases o.destination <;> simp

theorem destination_mem_or_eq_none (o : Order) :
    "destination" ∈ o.writtenNames ∨ o.destination = none := by
  unfold writtenNames
  cases o.destination <;> simp

theorem reads_write (hwords : o.InWords) : Reads Order.reader o.write.toList o :=
  reads_of_saying hwords (isObject_object o.forall₂_written) o.says_written o.nodup_writtenNames
    List.mem_cons_self (List.mem_cons_of_mem _ List.mem_cons_self) o.destination_mem_or_eq_none

end Order

/-! ## Choices and unit lists -/

namespace Choice

variable {c : Choice}

def InWords (c : Choice) : Prop := c.index < Word.bound ∧ c.order.InWords

theorem reads_write (hwords : c.InWords) : Reads Choice.reader c.write.toList c := by
  obtain ⟨hindex, horder⟩ := hwords
  have hobject : IsObject [⟨"index", (toString c.index).toList⟩, ⟨"order", c.order.write.toList⟩]
      c.write.toList :=
    isObject_object (.cons (spellsMember_member (by simp [Plain]))
      (.cons (spellsMember_member (by simp [Plain])) .nil))
  let changes : List (Member × (Choice → Choice)) :=
    [(⟨"index", (toString c.index).toList⟩, fun draft => { draft with index := c.index }),
      (⟨"order", c.order.write.toList⟩, fun draft => { draft with order := c.order })]
  refine reads_members changes hobject ?_ (by simp [changes])
    (by simp [changes, RecordField.of])
  simp only [changes, List.forall_mem_cons]
  exact ⟨⟨_, rfl, (reads_natural hindex).of⟩, ⟨_, rfl, (Order.reads_write horder).of⟩, nofun⟩

end Choice

namespace UnitList

variable {u : UnitList} {w : WrittenUnits}

def InWords (u : UnitList) : Prop := ∀ area ∈ u.areas, area < Word.bound

theorem toUnitList_eq_ok_iff :
    w.toUnitList = .ok u ↔ u.areas.Perm w.areas ∧ u.phase = w.phase := by
  unfold WrittenUnits.toUnitList
  constructor
  · intro h
    obtain ⟨u', hu', h⟩ := bind_eq_ok_iff.mp h
    cases h
    exact ⟨(perm_of_ofAreas hu').1, rfl⟩
  · rintro ⟨hperm, hphase⟩
    refine bind_eq_ok_iff.mpr ⟨u.withPhase .movement, ofAreas_eq_ok_iff.mpr ⟨hperm, rfl⟩, ?_⟩
    rw [← hphase]
    rfl

theorem reads_write (hwords : u.InWords) : Reads UnitList.reader u.write.toList u := by
  have hobject : IsObject [⟨"areas", (array (u.areas.map toString)).toList⟩,
      ⟨"phase", (quoted u.phase.name).toList⟩] u.write.toList :=
    isObject_object (.cons (spellsMember_member (by simp [Plain]))
      (.cons (spellsMember_member (by simp [Plain])) .nil))
  let changes : List (Member × (WrittenUnits → WrittenUnits)) :=
    [(⟨"areas", (array (u.areas.map toString)).toList⟩,
        fun draft => { draft with areas := u.areas }),
      (⟨"phase", (quoted u.phase.name).toList⟩, fun draft => { draft with phase := u.phase })]
  have hwritten : Reads WrittenUnits.reader u.write.toList ⟨u.areas, u.phase⟩ := by
    refine reads_members changes hobject ?_ (by simp [changes])
      (by simp [changes, RecordField.of])
    simp only [changes, List.forall_mem_cons]
    exact ⟨⟨_, rfl, (reads_array hwords).of⟩, ⟨_, rfl, u.phase.reads.of⟩, nofun⟩
  refine hwritten.refine ?_
  rw [toUnitList_eq_ok_iff.mpr ⟨List.Perm.refl _, rfl⟩]
  rfl

/-- A text gives the list of the areas that stand in it, in order. -/
theorem readText_eq_ok_iff {text : String} : readText UnitList.reader text = .ok u ↔
    ∃ w, readText WrittenUnits.reader text = .ok w ∧ u.areas.Perm w.areas ∧ u.phase = w.phase := by
  simp only [Json.readText_eq_ok_iff, reader_eq_ok_iff, toUnitList_eq_ok_iff]
  constructor
  · rintro ⟨rest, ⟨w, hw, h⟩, hrest⟩
    exact ⟨w, ⟨rest, hw, hrest⟩, h⟩
  · rintro ⟨w, ⟨rest, hw, hrest⟩, h⟩
    exact ⟨rest, ⟨w, hw, h⟩, hrest⟩

end UnitList

/-- Orders, choices and unit lists of words are read back as they were
written.  An order without a destination is written without that member, and
whichever object says an order is read as that order: members may come in any
order and among others, and a destination that there is not may be missing or
`null`.  Any text that is read as a unit list holds the areas of the list, and
the list holds them strictly ascending. -/
theorem written_texts_are_read_back :
    (∀ o : Order, o.InWords → readText Order.reader o.write = .ok o) ∧
    (∀ c : Choice, c.InWords → readText Choice.reader c.write = .ok c) ∧
    (∀ u : UnitList, u.InWords → readText UnitList.reader u.write = .ok u) ∧
    (∀ o : Order, ∃ ms, HasMembers ms o.write ∧
      ms.map (·.name) = ["kind", "source"] ++ (o.destination.map fun _ => "destination").toList) ∧
    (∀ (o : Order) (text : String), o.InWords → o.SaidBy text →
      readText Order.reader text = .ok o) ∧
    ∀ (text : String) (u : UnitList), readText UnitList.reader text = .ok u →
      u.areas.Pairwise (· < ·) ∧
      ∃ w, readText WrittenUnits.reader text = .ok w ∧ u.areas.Perm w.areas ∧ u.phase = w.phase :=
  ⟨fun _ hwords => (Order.reads_write hwords).readText_toList,
    fun _ hwords => (Choice.reads_write hwords).readText_toList,
    fun _ hwords => (UnitList.reads_write hwords).readText_toList,
    fun o => ⟨_, hasMembers_object o.forall₂_written, o.names_writtenMembers⟩,
    fun _ _ => Order.readText_of_saidBy,
    fun _ u h => ⟨u.ascending, UnitList.readText_eq_ok_iff.mp h⟩⟩

/-- An order to hold, with its source first, something unasked for behind it and
no destination. -/
def plainly : String :=
  object [member "source" "4", member "note" "[]", member "destination" "null",
    member "kind" "\"hold\""]

theorem saidBy_plainly : (Order.hold 4).SaidBy plainly := by
  have hspelled : HasMembers [⟨"source", "4".toList⟩, ⟨"note", "[]".toList⟩,
      ⟨"destination", "null".toList⟩, ⟨"kind", "\"hold\"".toList⟩] plainly := by
    refine hasMembers_object (.cons (spellsMember_member ?_) (.cons (spellsMember_member ?_)
      (.cons (spellsMember_member ?_) (.cons (spellsMember_member ?_) .nil))))
    all_goals simp [Plain]
  have hkind : (Order.hold 4).SaysField "kind" ⟨"kind", "\"hold\"".toList⟩ :=
    .kind (k := "hold".toList) (standsFor_self (by simp [Plain]))
  exact ⟨["source", "destination", "kind"], _, hspelled, .field .source (.other (by decide)
    (.emptyList blank_nil) (.field (.noDestination rfl) (.field hkind .nil))), by decide, by decide,
    by decide, Or.inr rfl⟩

/-- The largest word is read back; a hold is read from a text that says so in
its own way; and areas are put in order. -/
theorem texts_of_orders_are_read :
    (Order.move 3 18446744073709551615).InWords ∧
    readText Order.reader (Order.move 3 18446744073709551615).write =
      .ok (Order.move 3 18446744073709551615) ∧
    readText Order.reader plainly = .ok (Order.hold 4) ∧
    readText UnitList.reader "\x7b\"areas\":[9,1]\x7d" = .ok (UnitList.pair 1 9 .movement) ∧
    (UnitList.pair 1 9 .movement).areas.Pairwise (· < ·) := by
  obtain ⟨horders, -, -, -, hsaid, hunits⟩ := written_texts_are_read_back
  have hwords : (Order.move 3 18446744073709551615).InWords := by
    simp [Order.InWords, Order.move, Word.bound]
  have hread : readText UnitList.reader "\x7b\"areas\":[9,1]\x7d" =
      .ok (UnitList.pair 1 9 .movement) := rfl
  exact ⟨hwords, horders _ hwords, hsaid _ _ ⟨by decide, nofun⟩ saidBy_plainly, hread,
    (hunits _ _ hread).1⟩

end OrderDecoding
