/-
# `Proofs.Unhindered` — what greedy decoding pays for the constraint

Masking other entries of a row does not make a choice: the first of the
largest entries stays the first of the largest if it is not masked itself,
ties with masked ones and relaxed rows included (`Row.First.constrain`).  If
it is masked, it is the destination of an area that was claimed before, and
to take it would claim that area again (`Greedy.step_cases`).

So a constrained pass goes the way of the unconstrained one up to the step
where the latter claims an area again, and there the two part
(`Greedy.parts_of_takeSteps`).  Where it never does they do not part at all:
the constraint costs nothing.
-/
import OrderDecoding.Proofs.Building
import OrderDecoding.Proofs.Causality
import OrderDecoding.Proofs.Narrowest

namespace OrderDecoding

open Score LawfulScore

/-! ## Claims without repetition -/

/-- Where no area stands twice among the claims none is claimed again. -/
theorem not_claimsAgain_of_nodup {choices : List Choice} (h : (claims choices).Nodup) (i : Nat) :
    ¬ ClaimsAgain choices i := by
  rintro ⟨choice, area, hchoice, hclaim, hmem⟩
  have hsplit : choices = choices.take i ++ choice :: choices.drop (i + 1) := by
    obtain ⟨hi, rfl⟩ := List.getElem?_eq_some_iff.mp hchoice
    rw [← List.drop_eq_getElem_cons hi, List.take_append_drop]
  have hclaims : claims choices =
      claims (choices.take i) ++ area :: claims (choices.drop (i + 1)) := by
    conv_lhs => rw [hsplit]
    rw [claims, List.filterMap_append]
    exact congrArg _ (List.filterMap_cons_some hclaim)
  rw [hclaims] at h
  exact (List.nodup_append.mp h).2.2 area hmem area List.mem_cons_self rfl

/-- The two lists of choices part at step `i`: up to there they are the
same, and there they are not. -/
structure PartAt (choices choices' : List Choice) (i : Nat) : Prop where
  take_eq : choices.take i = choices'.take i
  lt : i < choices.length
  lt' : i < choices'.length
  ne : choices[i]? ≠ choices'[i]?

/-- Where choices part does not depend on what comes later. -/
theorem PartAt.append {choices choices' : List Choice} {i : Nat} (h : PartAt choices choices' i)
    (more more' : List Choice) : PartAt (choices ++ more) (choices' ++ more') i where
  take_eq := by
    rw [List.take_append_of_le_length (Nat.le_of_lt h.lt),
      List.take_append_of_le_length (Nat.le_of_lt h.lt'), h.take_eq]
  lt := by
    rw [List.length_append]
    exact Nat.lt_add_right _ h.lt
  lt' := by
    rw [List.length_append]
    exact Nat.lt_add_right _ h.lt'
  ne := by
    rw [List.getElem?_append_left h.lt, List.getElem?_append_left h.lt']
    exact h.ne

/-! ## What a destination entry claims -/

/-- Out of the build phase the destination entry of an area claims it. -/
theorem Vocabulary.claim?_orderAt_destination {v : Vocabulary} {index : Nat} {unit area : Area}
    {phase : Phase} (hphase : phase ≠ .build) (hslot : v.slot? index = some (.destination area))
    {order : Order} (h : v.orderAt index unit phase = .ok order) : order.claim? = some area := by
  obtain ⟨-, slot, hslot', rfl⟩ := orderAt_eq_ok_iff.mp h
  obtain rfl := Option.some.inj (hslot.symm.trans hslot')
  cases phase with
  | movement => rfl
  | retreat => rfl
  | build => exact absurd rfl hphase

variable {α : Type}

theorem Position.claim?_of_choose_destination {p : Position α} (hphase : p.units.phase ≠ .build)
    {step : Nat} {area : Area} (harea : area < p.vocab.numAreas) {choice : Choice}
    (h : p.choose step (p.vocab.destinationIndex area) = .ok choice) :
    choice.order.claim? = some area := by
  obtain ⟨-, unit, -, horder⟩ := choose_eq_ok_iff.mp h
  exact Vocabulary.claim?_orderAt_destination hphase
    (Vocabulary.slot?_eq_destination_iff.mpr ⟨rfl, harea⟩) horder

variable [Score α] [LawfulScore α]

/-! ## The first of the largest entries -/

/-- It stays the first of the largest if it is not masked itself, whatever
else is. -/
theorem Row.First.constrain {c : Constraint} {s : Sequence} {row : List α} {x : α} {i : Nat}
    (h : First row x i) (hopen : i ∉ c.targets s row.length) :
    First (c.constrain s row).row x i where
  entry := by rw [Constraint.getElem?_constrain_of_not_target hopen, h.entry]
  unmasked := h.unmasked
  le j y hy := by
    rcases (Constraint.getElem?_constrain hy).1 with rfl | hy
    · exact negInf_le (h.le i x h.entry)
    · exact h.le j y hy
  before j y hy hxy := by
    rcases (Constraint.getElem?_constrain hy).1 with rfl | hy
    · exact absurd hxy h.unmasked
    · exact h.before j y hy hxy

/-! ## Two passes -/

namespace Greedy

variable {p : Position α} {path : Path α}

omit [LawfulScore α] in
/-- To choose an entry that the mask covers is to claim an area again. -/
theorem claimsAgain_of_target {n index : Nat} {choice : Choice} (hpath : path.Held p n)
    (htarget : index ∈ (p.constraint true).targets path.sequence p.vocab.size)
    (hchoose : p.choose path.sequence.length index = .ok choice) :
    ClaimsAgain (path.sequence.choices ++ [choice]) path.sequence.choices.length := by
  obtain ⟨-, hlt, area, harea, rfl⟩ := Constraint.mem_targets.mp htarget
  -- in the build phase there would be no claim
  have hphase : p.units.phase ≠ .build := by
    intro hphase
    rw [hpath.claimed_eq_nil hphase] at harea
    cases harea
  have hclaim := Position.claim?_of_choose_destination hphase
    (Vocabulary.destinationIndex_lt_size.mp hlt) hchoose
  rw [hpath.eq_ofChoices] at harea
  refine ⟨choice, area, List.getElem?_concat_length, hclaim, ?_⟩
  rw [List.take_left]
  exact Sequence.mem_claimed_ofChoices.mp harea

/-- From one path a constrained step goes where the unconstrained one goes,
unless that claims an area again. -/
theorem step_cases {n : Nat} {free : Path α} (hpath : path.Held p n)
    (h : Greedy.step p (p.constraint false) path = .ok free) :
    Greedy.step p (p.constraint true) path = .ok free ∨
      ClaimsAgain free.sequence.choices path.sequence.choices.length := by
  obtain ⟨raw, index, choice, hraw, hargmax, hchoose, rfl⟩ := step_eq_ok_iff.mp h
  have hvalid := Position.valid_of_scores hraw
  rw [Constraint.constrain_eq_self (Or.inl rfl)] at hargmax
  obtain ⟨x, hfirst⟩ := (Row.argmax_eq_some_iff hvalid.numbers).mp hargmax
  by_cases htarget : index ∈ (p.constraint true).targets path.sequence raw.length
  · rw [Position.length_of_scores hraw] at htarget
    exact Or.inr (claimsAgain_of_target hpath htarget hchoose)
  · refine Or.inl (step_eq_ok_iff.mpr ⟨raw, index, choice, hraw, ?_, hchoose, rfl⟩)
    exact (hfirst.constrain htarget).argmax_eq (Constraint.valid_constrain hvalid).numbers

omit [LawfulScore α] in
/-- Two steps from one path that choose the same lead to the same. -/
theorem step_unique {c c' : Constraint} {next next' : Path α}
    (h : Greedy.step p c path = .ok next) (h' : Greedy.step p c' path = .ok next')
    (hchoices : next.sequence.choices = next'.sequence.choices) : next = next' := by
  obtain ⟨raw, index, choice, hraw, -, hchoose, rfl⟩ := step_eq_ok_iff.mp h
  obtain ⟨raw', index', choice', hraw', -, hchoose', rfl⟩ := step_eq_ok_iff.mp h'
  obtain rfl : raw = raw' := Except.ok.inj (hraw.symm.trans hraw')
  obtain rfl : choice = choice' := List.singleton_inj.mp (List.append_cancel_left hchoices)
  rw [← Position.index_of_choose hchoose, ← Position.index_of_choose hchoose']

section

variable {n : Nat} {free : Path α}
  (hfree : takeSteps (Greedy.step p (p.constraint false)) n Path.start = .ok free)

include hfree

/-- A pass that never claims an area again is the constrained pass. -/
theorem takeSteps_unhindered (h : ∀ i, ¬ ClaimsAgain free.sequence.choices i) :
    takeSteps (Greedy.step p (p.constraint true)) n Path.start = .ok free := by
  induction n generalizing free with
  | zero => exact hfree
  | succ n ih =>
    rw [takeSteps_succ] at hfree ⊢
    obtain ⟨path, hpath, hstep⟩ := bind_eq_ok_iff.mp hfree
    obtain ⟨choice, hchoices⟩ := (extends_step hstep).choices
    have hearlier : ∀ i, ¬ ClaimsAgain path.sequence.choices i := fun i hagain =>
      h i (hchoices ▸ hagain.append [choice])
    refine bind_eq_ok_iff.mpr ⟨path, ih hpath hearlier, ?_⟩
    exact (step_cases (.greedy hpath) hstep).resolve_right (h _)

/-- Passes that differ part where the unconstrained one claims an area
again. -/
theorem parts_of_takeSteps {bound : Path α}
    (hbound : takeSteps (Greedy.step p (p.constraint true)) n Path.start = .ok bound)
    (hne : bound ≠ free) : ∃ i, PartAt free.sequence.choices bound.sequence.choices i ∧
      ClaimsAgain free.sequence.choices i := by
  induction n generalizing free bound with
  | zero => exact absurd (Except.ok.inj (hbound.symm.trans hfree)) hne
  | succ n ih =>
    rw [takeSteps_succ] at hfree hbound
    obtain ⟨path, hpath, hstep⟩ := bind_eq_ok_iff.mp hfree
    obtain ⟨path', hpath', hstep'⟩ := bind_eq_ok_iff.mp hbound
    obtain ⟨choice, hchoices⟩ := (extends_step hstep).choices
    obtain ⟨choice', hchoices'⟩ := (extends_step hstep').choices
    by_cases hsame : path' = path
    · -- they part at this step, since the same choice would lead to the same
      subst hsame
      have hagain := (step_cases (.greedy hpath) hstep).resolve_left fun h =>
        hne (Except.ok.inj (hstep'.symm.trans h))
      refine ⟨_, ?_, hagain⟩
      rw [hchoices, hchoices']
      refine ⟨by rw [List.take_left, List.take_left], by simp, by simp, fun heq => hne ?_⟩
      rw [List.getElem?_concat_length, List.getElem?_concat_length, Option.some.injEq] at heq
      exact step_unique hstep' hstep (by rw [hchoices, hchoices', heq])
    · obtain ⟨i, hpart, hagain⟩ := ih hpath hpath' hsame
      rw [hchoices, hchoices']
      exact ⟨i, hpart.append [choice] [choice'], hagain.append [choice]⟩

end

/-- The constraint changes nothing about a greedy pass that claims no area
twice.  If it does change something, then the first choice that it changes
is one that would have claimed an area again. -/
theorem decode_pays_for_claims (p : Position α) (temperature : α) :
    (∀ free, Greedy.decode p temperature false = .ok free → (claims free.choices).Nodup →
      Greedy.decode p temperature true = .ok free) ∧
    (∀ free bound, Greedy.decode p temperature false = .ok free →
      Greedy.decode p temperature true = .ok bound → bound ≠ free →
        ∃ i, PartAt free.choices bound.choices i ∧ ClaimsAgain free.choices i) := by
  refine ⟨fun free hfree hnodup => ?_, fun free bound hfree hbound hne => ?_⟩
  · obtain ⟨htemperature, path, hpath, rfl⟩ := decode_eq_ok_iff.mp hfree
    have hsame := takeSteps_unhindered hpath (not_claimsAgain_of_nodup hnodup)
    exact decode_eq_ok_iff.mpr ⟨htemperature, path, hsame, rfl⟩
  · obtain ⟨-, path, hpath, rfl⟩ := decode_eq_ok_iff.mp hfree
    obtain ⟨-, path', hpath', rfl⟩ := decode_eq_ok_iff.mp hbound
    exact parts_of_takeSteps hpath hpath' fun hsame => hne (by rw [hsame])

end Greedy

/-- Two units.  The first goes to the area of the second, which can as well
stay as go where it is claimed. -/
def staying : Position Stark :=
  Stark.position 2 [Stark.row 11 [(10, 0)], Stark.row 11 [(0, 0), (10, 0)]]

/-- Where the second unit stays by itself the mask changes nothing; where it
would follow the first the passes part. -/
theorem staying_pays_nothing :
    (Greedy.decode staying 1 false = .ok ⟨[⟨10, .move 0 1⟩, ⟨0, .hold 1⟩], (0 : Float), .greedy⟩ ∧
      Greedy.decode staying 1 true =
        .ok ⟨[⟨10, .move 0 1⟩, ⟨0, .hold 1⟩], (0 : Float), .greedy⟩) ∧
    (Greedy.decode contested 1 false =
        .ok ⟨[⟨10, .move 0 1⟩, ⟨10, .move 1 1⟩], (0 : Float), .greedy⟩ ∧
      Greedy.decode contested 1 true = .ok (contestedCandidate .greedy)) ∧
    ∃ i, PartAt [⟨10, .move 0 1⟩, ⟨10, .move 1 1⟩] (contestedCandidate .greedy).choices i ∧
      ClaimsAgain [⟨10, .move 0 1⟩, ⟨10, .move 1 1⟩] i := by
  have hstaying : Greedy.decode staying 1 false =
      .ok ⟨[⟨10, .move 0 1⟩, ⟨0, .hold 1⟩], (0 : Float), .greedy⟩ := by
    decide +kernel
  have hfree : Greedy.decode contested 1 false =
      .ok ⟨[⟨10, .move 0 1⟩, ⟨10, .move 1 1⟩], (0 : Float), .greedy⟩ := by
    decide +kernel
  have hbound : Greedy.decode contested 1 true = .ok (contestedCandidate .greedy) := by
    decide +kernel
  obtain ⟨hsame, -⟩ := Greedy.decode_pays_for_claims staying 1
  obtain ⟨-, hpart⟩ := Greedy.decode_pays_for_claims contested 1
  exact ⟨⟨hstaying, hsame _ hstaying (by decide)⟩, ⟨hfree, hbound⟩,
    hpart _ _ hfree hbound (by decide +kernel)⟩

end OrderDecoding
